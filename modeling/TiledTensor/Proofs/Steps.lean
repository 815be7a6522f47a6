import TiledTensor.Node.Accessor
import TiledTensor.Proofs.Dispatch

/-!
# The steps of a rank keep its log in order

Most of what a rank does to its buffers leaves the rest of the node alone (`Node.OnlyBuffers`).
What is left are the places where a task moves on: it is queued, started, run, received, or given
up. For each of them the log, and the set of tasks that are done, is stated after the step.
-/

namespace TiledTensor

/-- A handle without its memory. -/
def Handle.bare {α : Type} (e : Handle α) : Handle α := { e with memory := .absent }

namespace Node

variable {α : Type} {n n' : Node α} {log : List (Task α)} {done : TaskId → Prop}
  {todo : List (Task α)}

/-! ## Changes of buffers -/

/-- Only the buffers differ, and a poisoned one stays so. -/
structure OnlyBuffers (n n' : Node α) : Prop where
  eq : n' = { n with handles := n'.handles }
  length : n'.handles.length = n.handles.length
  poisoned : ∀ h, (n.handle h).memory = .poisoned → (n'.handle h).memory = .poisoned

namespace OnlyBuffers

theorem refl (n : Node α) : n.OnlyBuffers n := ⟨rfl, rfl, fun _ h => h⟩

theorem trans {n₁ n₂ n₃ : Node α} (h : n₁.OnlyBuffers n₂) (h' : n₂.OnlyBuffers n₃) :
    n₁.OnlyBuffers n₃ := by
  refine ⟨?_, h'.length.trans h.length, fun k hk => h'.poisoned k (h.poisoned k hk)⟩
  rw [h'.eq, h.eq]

theorem rank (h : n.OnlyBuffers n') : n'.rank = n.rank := by rw [h.eq]

theorem size (h : n.OnlyBuffers n') : n'.size = n.size := by rw [h.eq]

theorem codelets (h : n.OnlyBuffers n') : n'.codelets = n.codelets := by rw [h.eq]

theorem events (h : n.OnlyBuffers n') : n'.events = n.events := by rw [h.eq]

theorem scheduler (h : n.OnlyBuffers n') : n'.scheduler = n.scheduler := by rw [h.eq]

theorem work (h : n.OnlyBuffers n') : n'.work = n.work := by rw [h.eq]

theorem arrivals (h : n.OnlyBuffers n') : n'.arrivals = n.arrivals := by rw [h.eq]

theorem accessors (h : n.OnlyBuffers n') : n'.accessors = n.accessors := by rw [h.eq]

end OnlyBuffers

/-- Only the memory of buffers differs, and a poisoned one stays so. -/
structure OnlyMemory (n n' : Node α) : Prop extends OnlyBuffers n n' where
  bare : ∀ h, (n'.handle h).bare = (n.handle h).bare

namespace OnlyMemory

theorem refl (n : Node α) : n.OnlyMemory n := ⟨.refl n, fun _ => rfl⟩

theorem trans {n₁ n₂ n₃ : Node α} (h : n₁.OnlyMemory n₂) (h' : n₂.OnlyMemory n₃) :
    n₁.OnlyMemory n₃ :=
  ⟨h.toOnlyBuffers.trans h'.toOnlyBuffers, fun k => (h'.bare k).trans (h.bare k)⟩

end OnlyMemory

theorem handle_setHandle (n : Node α) (h j : HandleId) (e : Handle α) :
    (n.setHandle h e).handle j = if j = h ∧ h < n.handles.length then e else n.handle j := by
  unfold handle setHandle
  dsimp only
  rw [List.getD_eq_getElem?_getD, List.getD_eq_getElem?_getD, List.getElem?_set]
  by_cases hj : h = j
  · subst hj
    by_cases hl : h < n.handles.length
    · simp [hl]
    · simp [hl]
  · simp [hj, Ne.symm hj]

/-- Buffers that are made leave the earlier ones as they are. -/
theorem handle_append_left (own : List (Handle α)) {h : HandleId} (hh : h < n.handles.length) :
    handle { n with handles := n.handles ++ own } h = n.handle h := by
  unfold handle
  rw [List.getD_eq_getElem?_getD, List.getD_eq_getElem?_getD, List.getElem?_append_left hh]

/-- Buffers that are made come after the earlier ones. -/
theorem handle_append_right (n : Node α) (own : List (Handle α)) (k : Nat) :
    handle { n with handles := n.handles ++ own } (n.handles.length + k) = own.getD k default := by
  unfold handle
  rw [List.getD_eq_getElem?_getD, List.getElem?_append_right (Nat.le_add_right _ _),
    Nat.add_sub_cancel_left, List.getD_eq_getElem?_getD]

theorem onlyBuffers_setHandle {h : HandleId} {e : Handle α}
    (he : (n.handle h).memory = .poisoned → e.memory = .poisoned) :
    n.OnlyBuffers (n.setHandle h e) := by
  refine ⟨rfl, by simp [setHandle], fun j hj => ?_⟩
  rw [handle_setHandle]
  split
  · rename_i hjh
    exact he (hjh.1 ▸ hj)
  · exact hj

theorem onlyMemory_setHandle {h : HandleId} {e : Handle α}
    (he : (n.handle h).memory = .poisoned → e.memory = .poisoned)
    (hb : e.bare = (n.handle h).bare) : n.OnlyMemory (n.setHandle h e) := by
  refine ⟨onlyBuffers_setHandle he, ?_⟩
  intro j
  rw [handle_setHandle]
  split
  · rename_i hj
    rw [hj.1, hb]
  · rfl

theorem onlyMemory_store (n : Node α) (h : HandleId) (block : List α) :
    n.OnlyMemory (n.setHandle h ((n.handle h).store block)) := by
  apply onlyMemory_setHandle
  · intro hp
    rw [Handle.store, hp]
    exact hp
  · unfold Handle.store
    split <;> rfl

theorem onlyMemory_poison (n : Node α) (h : HandleId) :
    n.OnlyMemory (n.setHandle h (n.handle h).poison) :=
  onlyMemory_setHandle (fun _ => rfl) rfl

theorem onlyMemory_evict {h : HandleId} {e : Handle α} (he : (n.handle h).evict = .ok e) :
    n.OnlyMemory (n.setHandle h e) := by
  unfold Handle.evict at he
  split at he
  · cases he
  · rename_i hp
    obtain rfl := Except.ok.inj he
    exact onlyMemory_setHandle (fun h => absurd h hp) rfl

theorem onlyBuffers_markWritten (n : Node α) (uses : List (HandleId × Access)) :
    n.OnlyBuffers (n.markWritten uses) := by
  induction uses generalizing n with
  | nil => exact .refl n
  | cons u uses ih =>
    rw [markWritten, List.foldl_cons]
    by_cases hw : u.2.writes = true
    · rw [if_pos hw]
      exact (onlyBuffers_setHandle (e := (n.handle u.1).markWritten) fun hp => hp).trans (ih _)
    · rw [if_neg hw]
      exact ih n

theorem onlyMemory_poisonAll (n : Node α) (uses : List (HandleId × Access)) :
    n.OnlyMemory (n.poisonAll uses) := by
  induction uses generalizing n with
  | nil => exact .refl n
  | cons u uses ih =>
    rw [poisonAll, List.foldl_cons]
    by_cases hw : u.2.writes = true
    · rw [if_pos hw]
      exact (onlyMemory_poison n u.1).trans (ih _)
    · rw [if_neg hw]
      exact ih n

theorem onlyMemory_storeAll (n : Node α) (operands : List Operand) (views : List (View α)) :
    n.OnlyMemory (n.storeAll operands views) := by
  induction operands generalizing n views with
  | nil =>
    unfold storeAll
    exact .refl n
  | cons o operands ih =>
    cases views with
    | nil =>
      cases o <;> unfold storeAll <;> exact .refl n
    | cons v views =>
      cases o with
      | scratch bytes =>
        unfold storeAll
        exact ih n views
      | data h a =>
        unfold storeAll
        dsimp only
        split
        · split
          · exact (onlyMemory_store n h _).trans (ih _ views)
          · exact ih n views
        · exact ih n views

section

variable [Scalar α]

/-- A poisoned buffer cannot be opened. -/
theorem access_of_poisoned {e : Handle α} (he : e.memory = .poisoned) :
    e.access = (e, .error .poisoned) := by
  unfold Handle.access
  rw [he]

theorem openHandle_fst (n : Node α) (h : HandleId) :
    (n.openHandle h).1 = n.setHandle h (n.handle h).access.1 := rfl

theorem openHandle_snd (n : Node α) (h : HandleId) :
    (n.openHandle h).2 = (n.handle h).access.2 := rfl

theorem onlyMemory_openHandle (n : Node α) (h : HandleId) : n.OnlyMemory (n.openHandle h).1 := by
  rw [openHandle_fst]
  apply onlyMemory_setHandle
  · intro hp
    rw [access_of_poisoned hp]
    exact hp
  · unfold Handle.access
    split
    · rfl
    · rfl
    · split <;> rfl

theorem onlyMemory_openAll (n : Node α) (operands : List Operand) :
    n.OnlyMemory (n.openAll operands).1 := by
  induction operands generalizing n with
  | nil => exact .refl n
  | cons o operands ih =>
    cases o with
    | scratch bytes =>
      unfold openAll
      split
      · exact ih n
      · exact .refl n
    | data h a =>
      have hopen := onlyMemory_openHandle n h
      unfold openAll
      split
      · rename_i m f hm
        rw [hm] at hopen
        exact hopen
      · rename_i m block hm
        rw [hm] at hopen
        have hrest := ih m
        split
        · rename_i hm'
          rw [hm'] at hrest
          exact hopen.trans hrest
        · rename_i m' hm'
          rw [hm'] at hrest
          split
          · exact (hopen.trans hrest).trans (onlyMemory_poison m' h)
          · exact hopen.trans hrest

theorem onlyMemory_run (n : Node α) (op : Op α) : n.OnlyMemory (n.run op) := by
  have hopen := onlyMemory_openAll n op.operands
  unfold run
  split
  · rename_i m hm
    rw [hm] at hopen
    exact hopen
  · rename_i m views hm
    rw [hm] at hopen
    split
    · exact hopen.trans (onlyMemory_storeAll m _ _)
    · exact hopen.trans (onlyMemory_poisonAll m _)

/-! ## When a rank makes a step -/

/-- An event that the scheduler reacts to is taken: what is started starts, and barriers are
answered. -/
theorem takeEvent_of_react {net : Cluster} {s : Scheduler α} {e : Event α} {events : List (Event α)}
    {p : Scheduler α × Reaction α} (hs : n.scheduler = some s) (he : n.events = e :: events)
    (hok : s.react e = .ok p) : takeEvent net n =
      some ((startAll net { n with events, scheduler := some p.1 } p.2.started).1,
        (startAll net { n with events, scheduler := some p.1 } p.2.started).2.pass p.2.passed) := by
  unfold takeEvent
  rw [hs, he]
  dsimp only
  rw [hok]

theorem runWork_eq_some_iff {i : Nat} : n.runWork i = some n' ↔ ∃ w, n.work[i]? = some w ∧
    n' = (({ n with work := n.work.eraseIdx i } : Node α).run w.op).post (.complete w.id) := by
  unfold runWork
  constructor
  · intro h
    split at h
    · cases h
    · rename_i w hw
      exact ⟨w, hw, (Option.some.inj h).symm⟩
  · rintro ⟨w, hw, rfl⟩
    rw [hw]

/-- A receive ends once it has been answered. -/
theorem takeArrival_eq_some_iff {net net' : Cluster} {i : Nat} :
    takeArrival net n i = some (net', n') ↔ ∃ a r, n.arrivals[i]? = some a ∧
      net.receipts.find? a.ticket = some r ∧ r ≠ .waiting ∧ net' = net.forget a.ticket ∧
        n' = ({ n with arrivals := n.arrivals.eraseIdx i } : Node α).finish a r := by
  unfold takeArrival
  constructor
  · intro h
    split at h
    · cases h
    · rename_i a ha
      split at h
      · cases h
      · cases h
      · rename_i r hw hr
        cases h
        exact ⟨a, r, ha, hr, hw, rfl, rfl⟩
  · rintro ⟨a, r, ha, hr, hw, rfl, rfl⟩
    rw [ha]
    dsimp only
    rw [hr]
    cases r with
    | waiting => exact absurd rfl hw
    | refused c => rfl
    | delivered payload => rfl

end

/-! ## Active tasks and vacant accessors -/

namespace OnlyBuffers

theorem active_iff (h : n.OnlyBuffers n') (k : TaskId) : n'.Active k ↔ n.Active k := by
  rw [h.eq]
  exact Iff.rfl

theorem lost (h : n.OnlyBuffers n') {k : TaskId} (hk : n.Lost log k) : n'.Lost log k := by
  obtain ⟨t, j, src, tag, ht, hj, hp⟩ := hk
  exact ⟨t, j, src, tag, ht, hj, h.poisoned j hp⟩

end OnlyBuffers

namespace Orderly

/-- Changes of buffers do not concern the log. -/
theorem onlyBuffers (ho : n.Orderly log done todo) (h : n.OnlyBuffers n') :
    n'.Orderly log done todo := by
  have heq := h.eq
  refine ⟨ho.sound.congr ?_ ?_ ?_ ?_, fun s hs => ?_⟩
  · rw [heq]
  · rw [heq]
  · rw [heq]
  · rw [heq]
  · rw [heq] at hs
    obtain ⟨m, roster, hr⟩ := ho.running s hs
    refine ⟨m, roster, hr.congr rfl rfl ?_ h.active_iff (fun j _ hj => ?_) fun j hj => h.lost hj⟩
    · rw [heq]
    · rw [heq]
      exact hj

/-- The end of an active task is reported to the scheduler, if it still runs. -/
theorem finish {k : TaskId} (ho : n.Orderly log done todo) (hk : n.Active k)
    (hs : n'.Sound log done) (hsched : n'.scheduler = n.scheduler) {e : Event α}
    (he : n.scheduler.isSome → n'.events = n.events ++ [e]) (hend : e.ended? = some k)
    (hgone : ¬n'.Active k) (hactive : ∀ j ≠ k, (n'.Active j ↔ n.Active j))
    (hv : ∀ j, n.accessors.find? j = none → n'.accessors.find? j = none)
    (hl : ∀ j, n.Lost log j → n'.Lost log j) :
    n'.Orderly log (fun j => done j ∨ j = k) todo := by
  refine ⟨hs.insert (ho.sound.lt_of_active hk) (fun j hj => ho.sound.first j k hj hk) hgone,
    fun s hs' => ?_⟩
  rw [hsched] at hs'
  obtain ⟨m, roster, hr⟩ := ho.running s hs'
  obtain ⟨x, hx, hxk, hw⟩ := hr.entry_of_active ho.sound hk
  refine ⟨m, roster, hr.advance ⟨x, hx, hxk, hw⟩ rfl rfl (he (by rw [hs']; rfl))
    (fun e' he' => List.mem_singleton.mp he' ▸ hend) hactive (fun j hj => or_iff_left hj) ?_ Or.inl
    (Or.inl (Or.inr rfl)) (fun j _ => hv j) hl (List.Sublist.refl _) (fun t ht h => ?_)
    fun j hj => Or.inr hj⟩
  · have := ho.sound.undone k hk
    simp [this]
  · obtain ⟨-, -, -, ha, -⟩ := hr.starting t ht
    exact ha (h ▸ hk)

end Orderly

/-! ## Posting events -/

@[simp] theorem post_scheduler (n : Node α) (e : Event α) : (n.post e).scheduler = n.scheduler := by
  unfold post
  split <;> rfl

@[simp] theorem post_rank (n : Node α) (e : Event α) : (n.post e).rank = n.rank := by
  unfold post
  split <;> rfl

@[simp] theorem post_size (n : Node α) (e : Event α) : (n.post e).size = n.size := by
  unfold post
  split <;> rfl

@[simp] theorem post_codelets (n : Node α) (e : Event α) : (n.post e).codelets = n.codelets := by
  unfold post
  split <;> rfl

@[simp] theorem post_handles (n : Node α) (e : Event α) : (n.post e).handles = n.handles := by
  unfold post
  split <;> rfl

@[simp] theorem post_work (n : Node α) (e : Event α) : (n.post e).work = n.work := by
  unfold post
  split <;> rfl

@[simp] theorem post_arrivals (n : Node α) (e : Event α) : (n.post e).arrivals = n.arrivals := by
  unfold post
  split <;> rfl

@[simp] theorem post_accessors (n : Node α) (e : Event α) : (n.post e).accessors = n.accessors := by
  unfold post
  split <;> rfl

@[simp] theorem post_nextTask (n : Node α) (e : Event α) : (n.post e).nextTask = n.nextTask := by
  unfold post
  split <;> rfl

theorem post_events (n : Node α) (e : Event α) (h : n.scheduler.isSome) :
    (n.post e).events = n.events ++ [e] := by
  unfold post
  rw [if_pos h]

@[simp] theorem active_post {n : Node α} {e : Event α} {k : TaskId} :
    (n.post e).Active k ↔ n.Active k := by
  unfold Active
  simp

theorem lost_post {n : Node α} {e : Event α} {k : TaskId} :
    (n.post e).Lost log k ↔ n.Lost log k := by
  unfold Lost handle
  simp

/-! ## The end of a task -/

/-- Only the task with the number of the erased entry goes. -/
theorem exists_mem_eraseIdx_iff {β : Type} {f : β → TaskId} {l : List β} {i : Nat} {x : β}
    (hn : (l.map f).Nodup) (hx : l[i]? = some x) (k : TaskId) :
    (∃ y ∈ l.eraseIdx i, f y = k) ↔ (∃ y ∈ l, f y = k) ∧ k ≠ f x := by
  induction l generalizing i with
  | nil => simp at hx
  | cons y l ih =>
    rw [List.map_cons, List.nodup_cons] at hn
    cases i with
    | zero =>
      obtain rfl : y = x := by simpa using hx
      rw [List.eraseIdx_cons_zero]
      constructor
      · rintro ⟨z, hz, rfl⟩
        exact ⟨⟨z, List.mem_cons_of_mem _ hz, rfl⟩, fun h => hn.1 (h ▸ List.mem_map_of_mem hz)⟩
      · rintro ⟨⟨z, hz, rfl⟩, hne⟩
        exact ⟨z, (List.mem_cons.mp hz).resolve_left fun h => hne (h ▸ rfl), rfl⟩
    | succ i =>
      have hx : l[i]? = some x := by simpa using hx
      have hyx : f y ≠ f x := fun h =>
        hn.1 (h ▸ List.mem_map_of_mem (List.mem_of_getElem? hx))
      rw [List.eraseIdx_cons_succ]
      simp only [List.mem_cons, exists_eq_or_imp, ih hn.2 hx]
      constructor
      · rintro (rfl | ⟨h, hne⟩)
        · exact ⟨Or.inl rfl, hyx⟩
        · exact ⟨Or.inr h, hne⟩
      · rintro ⟨rfl | h, hne⟩
        · exact Or.inl rfl
        · exact Or.inr ⟨h, hne⟩

namespace Orderly

variable {m : Node α}

/-- A ready computation runs. -/
theorem runWork (ho : n.Orderly log done todo) {i : Nat} {w : Work α} (hw : n.work[i]? = some w)
    (hm : OnlyBuffers { n with work := n.work.eraseIdx i } m) :
    (m.post (.complete w.id)).Orderly log (fun j => done j ∨ j = w.id) todo := by
  have hmem : w ∈ n.work := List.mem_of_getElem? hw
  have heq := hm.eq
  obtain ⟨t, ht, hjob⟩ := ho.sound.work w hmem
  have hwork : ∀ k, (∃ v ∈ m.work, v.id = k) ↔ (∃ v ∈ n.work, v.id = k) ∧ k ≠ w.id := fun k => by
    rw [heq]
    exact exists_mem_eraseIdx_iff ho.sound.work_nodup hw k
  have hs : (m.post (.complete w.id)).Sound log done := by
    refine ho.sound.shrink ?_ ?_ ?_ fun j a ha => ?_
    · rw [post_nextTask, heq]
    · rw [post_work, heq]
      exact List.eraseIdx_sublist ..
    · rw [post_arrivals, heq]
    · rw [post_accessors, heq] at ha
      exact ⟨a, ha, rfl, rfl, id⟩
  refine ho.finish (e := .complete w.id) (Or.inl ⟨w, hmem, rfl⟩) hs ?_ (fun h => ?_) rfl ?_
    (fun j hj => ?_) (fun j hj => ?_) fun j hj => lost_post.mpr (hm.lost hj)
  · rw [post_scheduler, heq]
  · rw [post_events m _ (by rw [heq]; exact h), heq]
  · refine hs.not_active_of_compute ht hjob fun v hv hvw => ?_
    rw [post_work] at hv
    exact ((hwork v.id).mp ⟨v, hv, rfl⟩).2 hvw
  · rw [active_post, Active, hwork, and_iff_left hj, heq]
    exact Iff.rfl
  · rw [post_accessors, heq]
    exact hj

/-- What is left of the log's duties when a receive has ended. -/
theorem shrink_arrivals (ho : n.Orderly log done todo) {i : Nat} {a : Arrival}
    (ha : n.arrivals[i]? = some a) (hm : OnlyBuffers { n with arrivals := n.arrivals.eraseIdx i } m) :
    m.Sound log done ∧ ¬m.Active a.id ∧ ∀ j ≠ a.id, (m.Active j ↔ n.Active j) := by
  have hmem : a ∈ n.arrivals := List.mem_of_getElem? ha
  have heq := hm.eq
  obtain ⟨t, src, tag, ht, hjob⟩ := ho.sound.arrivals a hmem
  have harr : ∀ k, (∃ b ∈ m.arrivals, b.id = k) ↔ (∃ b ∈ n.arrivals, b.id = k) ∧ k ≠ a.id := by
    intro k
    rw [heq]
    exact exists_mem_eraseIdx_iff ho.sound.arrivals_nodup ha k
  have hs : m.Sound log done := by
    apply ho.sound.shrink
    · rw [heq]
    · rw [heq]
    · rw [heq]
      exact List.eraseIdx_sublist ..
    · intro j b hb
      rw [heq] at hb
      exact ⟨b, hb, rfl, rfl, id⟩
  refine ⟨hs, ?_, ?_⟩
  · apply hs.not_active_of_receive ht hjob
    intro b hb hba
    exact ((harr b.id).mp ⟨b, hb, rfl⟩).2 hba
  · intro j hj
    rw [Active, harr, and_iff_left hj, heq]
    exact Iff.rfl

/-- A receive ends and says so. -/
theorem receive (ho : n.Orderly log done todo) {i : Nat} {a : Arrival}
    (ha : n.arrivals[i]? = some a) (hm : OnlyBuffers { n with arrivals := n.arrivals.eraseIdx i } m)
    {e : Event α} (hend : e.ended? = some a.id) :
    (m.post e).Orderly log (fun j => done j ∨ j = a.id) todo := by
  have heq := hm.eq
  obtain ⟨hs, hgone, hactive⟩ := ho.shrink_arrivals ha hm
  have hactive' : n.Active a.id := Or.inr (Or.inl ⟨a, List.mem_of_getElem? ha, rfl⟩)
  refine ho.finish hactive' (hs.congr ?_ ?_ ?_ ?_) ?_ ?_ hend ?_ ?_ ?_ ?_
  · rw [post_nextTask]
  · rw [post_work]
  · rw [post_arrivals]
  · rw [post_accessors]
  · rw [post_scheduler, heq]
  · intro h
    rw [post_events m _ (by rw [heq]; exact h), heq]
  · rwa [active_post]
  · intro j hj
    rw [active_post, hactive j hj]
  · intro j hj
    rw [post_accessors, heq]
    exact hj
  · intro j hj
    exact lost_post.mpr (hm.lost hj)

/-! ## Accessors -/

/-- An accessor is given up. If it was granted its task is done. -/
theorem release (ho : n.Orderly log done todo) {k : TaskId} {a : Accessor}
    (ha : n.accessors.find? k = some a) :
    (n.release k).Orderly log (fun j => done j ∨ (j = k ∧ a.phase = .granted)) todo := by
  obtain ⟨t, ht, hjob, -⟩ := ho.sound.accessors k a ha
  have hfind : ∀ j, (n.release k).accessors.find? j =
      if j = k then none else n.accessors.find? j := by
    intro j
    rw [Node.release, post_accessors, Table.find?_erase]
  have hvacant : ∀ j, n.accessors.find? j = none → (n.release k).accessors.find? j = none := by
    intro j hj
    rw [hfind, hj, ite_self]
  have hsched : (n.release k).scheduler = n.scheduler := post_scheduler _ _
  have hevents : n.scheduler.isSome → (n.release k).events = n.events ++ [.complete k] :=
    fun h => post_events _ _ h
  have hlost : ∀ j, n.Lost log j → (n.release k).Lost log j := by
    intro j hj
    exact lost_post.mpr hj
  have hs : (n.release k).Sound log done := by
    apply ho.sound.shrink
    · exact post_nextTask _ _
    · rw [Node.release, post_work]
    · rw [Node.release, post_arrivals]
    · intro j b hb
      rw [hfind] at hb
      split at hb
      · cases hb
      · exact ⟨b, hb, rfl, rfl, id⟩
  have hgone : ¬(n.release k).Active k := by
    apply hs.not_active_of_grant ht hjob
    intro b hb
    rw [hfind, if_pos rfl] at hb
    cases hb
  have hactive : ∀ j ≠ k, ((n.release k).Active j ↔ n.Active j) := by
    intro j hj
    rw [Active, hfind, if_neg hj, Node.release, post_work, post_arrivals]
    exact Iff.rfl
  by_cases hg : a.phase = .granted
  · have hk : n.Active k := Or.inr (Or.inr ⟨a, ha, hg⟩)
    simpa only [hg, and_true] using
      ho.finish hk hs hsched hevents rfl hgone hactive hvacant hlost
  · -- the accessor was never granted, so the task stays with the scheduler
    simp only [hg, and_false, or_false]
    refine ⟨hs, ?_⟩
    intro s hs'
    rw [hsched] at hs'
    obtain ⟨m, roster, hr⟩ := ho.running s hs'
    have hnot : ¬n.Active k := by
      apply ho.sound.not_active_of_grant ht hjob
      intro b hb
      rw [ha, Option.some.injEq] at hb
      exact hb ▸ hg
    refine ⟨m, roster, hr.giveUp ht hjob (hevents (by rw [hs']; rfl)) ?_ ?_ ?_ hlost⟩
    · intro j
      by_cases hj : j = k
      · rw [hj]
        exact iff_of_false hgone hnot
      · exact hactive j hj
    · rw [hfind, if_pos rfl]
    · intro j _ hj
      exact hvacant j hj

end Orderly

/-! ## Queueing a task -/

/-- A task is queued only while the scheduler runs. -/
theorem enqueue_eq_ok {name : String} {uses : List (HandleId × Access)} {job : Job α} {id : TaskId}
    (h : n.enqueue name uses job = (n', .ok id)) :
    n.scheduler.isSome ∧ id = n.nextTask ∧
      n' = { n with
        nextTask := n.nextTask + 1
        events := n.events ++ [.submit ⟨n.nextTask, name, uses, job⟩] } := by
  unfold enqueue at h
  dsimp only at h
  split at h
  · rename_i hs
    simp only [Prod.mk.injEq, Except.ok.injEq] at h
    obtain ⟨rfl, rfl⟩ := h
    refine ⟨hs, rfl, ?_⟩
    unfold post
    rw [if_pos hs]
  · simp at h

/-- An accessor comes with a task that waits for its turn. -/
theorem acquire_eq_ok {h : HandleId} {a : Access} {id : TaskId}
    (hok : n.acquire h a = (n', .ok id)) :
    a ≠ .scratch ∧ n.obstacle h a = none ∧ n.scheduler.isSome ∧ id = n.nextTask ∧
      n' = { n.markWritten [(h, a)] with
        nextTask := n.nextTask + 1
        events := n.events ++ [.submit ⟨n.nextTask, "acquire", [(h, a)], .grant⟩]
        accessors := n.accessors.put n.nextTask ⟨h, a, .waiting⟩ } := by
  have hm := (onlyBuffers_markWritten n [(h, a)]).eq
  unfold acquire at hok
  split at hok
  · simp at hok
  · rename_i ha
    split at hok
    · simp at hok
    · rename_i hobs
      split at hok
      · rename_i m j hj
        obtain ⟨hs, rfl, rfl⟩ := enqueue_eq_ok hj
        simp only [Prod.mk.injEq, Except.ok.injEq] at hok
        obtain ⟨rfl, rfl⟩ := hok
        refine ⟨ha, hobs, ?_, ?_, ?_⟩
        · rw [hm] at hs
          exact hs
        · rw [hm]
        · rw [hm]
      · simp at hok

namespace Orderly

variable {m : Node α}

/-- A new task stands at the end of the log. -/
theorem enqueue (ho : n.Orderly log done todo) {name : String} {uses : List (HandleId × Access)}
    {job : Job α} {id : TaskId} (h : n.enqueue name uses job = (n', .ok id))
    (hp : Task.Proper ⟨log.length, name, uses, job⟩) :
    id = log.length ∧ n'.Orderly (log ++ [⟨log.length, name, uses, job⟩]) done todo := by
  obtain ⟨-, rfl, rfl⟩ := enqueue_eq_ok h
  rw [ho.sound.next]
  refine ⟨rfl, ?_, ?_⟩
  · refine ho.sound.enqueue rfl hp rfl rfl rfl ?_ ?_
    · intro j hj
      exact hj
    · intro j a ha
      exact Or.inl ha
  · intro s hs
    obtain ⟨c, roster, hr⟩ := ho.running s hs
    refine ⟨c, roster, hr.enqueue rfl ?_ ?_ ?_⟩
    · intro j
      exact Iff.rfl
    · intro j _ hj
      exact hj
    · intro j hj
      exact hj

/-- The task of a new accessor stands at the end of the log. -/
theorem acquire (ho : n.Orderly log done todo) {h : HandleId} {a : Access} {id : TaskId}
    (hok : n.acquire h a = (n', .ok id)) :
    id = log.length ∧
      n'.Orderly (log ++ [⟨log.length, "acquire", [(h, a)], .grant⟩]) done todo := by
  obtain ⟨ha, -, -, rfl, hn'⟩ := acquire_eq_ok hok
  have hm := onlyBuffers_markWritten n [(h, a)]
  rw [hm.eq, ho.sound.next] at hn'
  have hfind : ∀ j, n'.accessors.find? j =
      if j = log.length then some ⟨h, a, .waiting⟩ else n.accessors.find? j := by
    intro j
    rw [hn']
    exact Table.find?_put _ _ _ _
  have hfree : n.accessors.find? log.length = none := by
    cases hb : n.accessors.find? log.length with
    | none => rfl
    | some b =>
      obtain ⟨t, ht, -⟩ := ho.sound.accessors log.length b hb
      exact absurd (lt_of_getElem?_eq_some ht) (Nat.lt_irrefl _)
  have hactive : ∀ j, n'.Active j ↔ n.Active j := by
    intro j
    rw [Active, hfind, hn', Active]
    by_cases hj : j = log.length
    · simp [hj, hfree]
    · simp [hj]
  refine ⟨ho.sound.next, ?_, ?_⟩
  · refine ho.sound.enqueue rfl ⟨by simpa using ha, h, a, rfl⟩ ?_ ?_ ?_ ?_ ?_
    · rw [hn']
    · rw [hn']
    · rw [hn']
    · intro j hj
      exact (hactive j).mp hj
    · intro j b hb
      rw [hfind] at hb
      split at hb
      · rename_i hj
        obtain rfl := Option.some.inj hb
        exact Or.inr ⟨hj, rfl, rfl⟩
      · exact Or.inl hb
  · intro s hs
    rw [hn'] at hs
    obtain ⟨c, roster, hr⟩ := ho.running s hs
    refine ⟨c, roster, hr.enqueue ?_ hactive ?_ ?_⟩
    · rw [hn']
    · intro j hj hjn
      rw [hfind, if_neg (Nat.ne_of_lt hj), hjn]
    · intro j hj
      have := hm.lost hj
      rw [hn']
      exact this

end Orderly

end Node

end TiledTensor
