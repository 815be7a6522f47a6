import TiledTensor.Proofs.Courses

/-!
# What a rank does by itself

The three steps of a rank, each taken apart once: what starting a task comes to (`Node.Starts`),
what taking an event comes to (`Node.Takes`), and what the end of a receive comes to
(`Node.Finishes`). Everything that is said later about what a rank does by itself is said case by
case of these, and of whatever happens to it case by case of `Node.Undergoes`.
-/

namespace TiledTensor

namespace Node

variable {α : Type} {n n' m : Node α} {net net' : Cluster} {t : Task α} {s : Scheduler α}
  {h : HandleId} {i : Nat}

section

variable [Scalar α]

/-! ## Starting a task -/

/-- What starting a task comes to. -/
inductive Starts (net : Cluster) (n : Node α) (t : Task α) : Cluster → Node α → Prop
  | computes (op : Op α) (job : t.job = .compute op) :
      Starts net n t net { n with work := n.work ++ [⟨t.id, op⟩] }
  | receives (h : HandleId) (src : Rank) (tag : Tag) (job : t.job = .receive h src tag) :
      Starts net n t (net.receive n.rank src tag).1
        { n with arrivals := n.arrivals ++ [⟨t.id, t.name, h, (net.receive n.rank src tag).2⟩] }
  | sends (h : HandleId) (dst : Rank) (tag : Tag) (block : List α) (net' : Cluster)
      (job : t.job = .send h dst tag) (opened : (n.openHandle h).2 = .ok block)
      (sent : net.send n.rank dst tag (Scalar.encodeBlock block) = .ok net') :
      Starts net n t net' ((n.openHandle h).1.post (.complete t.id))
  /-- The transport refuses the message: the failure is kept for a barrier. -/
  | refused (h : HandleId) (dst : Rank) (tag : Tag) (block : List α) (e : CommError)
      (job : t.job = .send h dst tag) (opened : (n.openHandle h).2 = .ok block)
      (unsent : net.send n.rank dst tag (Scalar.encodeBlock block) = .error e) :
      Starts net n t net (((n.openHandle h).1.note (.transfer t.name e)).post (.complete t.id))
  /-- The buffer of a message cannot be opened: the scheduler stops. -/
  | unopened (h : HandleId) (dst : Rank) (tag : Tag) (f : Fault) (job : t.job = .send h dst tag)
      (unopened : (n.openHandle h).2 = .error f) : Starts net n t net (n.openHandle h).1.stop
  | evicts (h : HandleId) (e : Handle α) (job : t.job = .evict h)
      (freed : (n.handle h).evict = .ok e) :
      Starts net n t net ((n.setHandle h e).post (.complete t.id))
  /-- A copy cannot be freed: the scheduler stops. -/
  | unfreed (h : HandleId) (f : Fault) (job : t.job = .evict h)
      (unfreed : (n.handle h).evict = .error f) : Starts net n t net n.stop
  | grants (job : t.job = .grant) (held : n.accessors.has t.id = true) :
      Starts net n t net
        { n with accessors := n.accessors.adjust t.id fun a => { a with phase := .granted } }
  /-- The accessor has been given up before it was granted. -/
  | vacant (job : t.job = .grant) (gone : n.accessors.has t.id = false) :
      Starts net n t net (n.post (.complete t.id))
  | retires (tags : TagRange) (job : t.job = .retire tags) :
      Starts net n t (net.retire n.rank tags) (n.post (.complete t.id))
  | withdrawn (job : t.job = .withdrawn) : Starts net n t net (n.post (.complete t.id))

theorem starts_of_start (net : Cluster) (n : Node α) (t : Task α) :
    Starts net n t (start net n t).1 (start net n t).2 := by
  unfold start
  split
  · rename_i op hjob
    exact .computes op hjob
  · rename_i h dst tag hjob
    split
    · rename_i m f hm
      have hopen : (n.openHandle h).2 = .error f := by rw [hm]
      rw [show m = (n.openHandle h).1 by rw [hm]]
      exact .unopened h dst tag f hjob hopen
    · rename_i m block hm
      have hopen : (n.openHandle h).2 = .ok block := by rw [hm]
      obtain rfl : m = (n.openHandle h).1 := by rw [hm]
      split
      · rename_i net' hnet
        exact .sends h dst tag block net' hjob hopen hnet
      · rename_i e hnet
        exact .refused h dst tag block e hjob hopen hnet
  · rename_i h src tag hjob
    exact .receives h src tag hjob
  · rename_i h hjob
    split
    · rename_i e he
      exact .evicts h e hjob he
    · rename_i f he
      exact .unfreed h f hjob he
  · rename_i hjob
    split
    · rename_i hheld
      exact .grants hjob hheld
    · rename_i hgone
      exact .vacant hjob (Bool.eq_false_iff.mpr hgone)
  · rename_i tags hjob
    exact .retires tags hjob
  · rename_i hjob
    exact .withdrawn hjob

/-- As a task is started a buffer is opened to be sent, or a copy is freed, or no buffer is
touched. -/
theorem Starts.handles (hs : n.Starts net t net' n') : n'.handles = n.handles ∨
    (∃ j dst tag, t.job = .send j dst tag ∧ n'.handles = (n.openHandle j).1.handles) ∨
    ∃ j e, t.job = .evict j ∧ (n.handle j).evict = .ok e ∧
      n'.handles = (n.setHandle j e).handles := by
  cases hs with
  | computes op job => exact Or.inl rfl
  | receives h src tag job => exact Or.inl rfl
  | sends h dst tag block _ job opened sent =>
    exact Or.inr (Or.inl ⟨h, dst, tag, job, post_handles _ _⟩)
  | refused h dst tag block e job opened unsent =>
    exact Or.inr (Or.inl ⟨h, dst, tag, job, post_handles _ _⟩)
  | unopened h dst tag f job unopened =>
    exact Or.inr (Or.inl ⟨h, dst, tag, job, stop_handles _⟩)
  | evicts h e job freed => exact Or.inr (Or.inr ⟨h, e, job, freed, post_handles _ _⟩)
  | unfreed h f job unfreed => exact Or.inl (stop_handles n)
  | grants job held => exact Or.inl rfl
  | vacant job gone => exact Or.inl (post_handles _ _)
  | retires tags job => exact Or.inl (post_handles _ _)
  | withdrawn job => exact Or.inl (post_handles _ _)

/-- As a task is started no more than its end is reported. -/
theorem Starts.events (hs : n.Starts net t net' n') (hn : n'.scheduler.isSome) :
    n'.events = n.events ∨ n'.events = n.events ++ [.complete t.id] := by
  have hpost : ∀ {m : Node α}, m.events = n.events → (m.post (.complete t.id)).scheduler.isSome →
      (m.post (.complete t.id)).events = n.events ++ [.complete t.id] := by
    intro m hm hs
    rw [post_scheduler] at hs
    rw [post_events m _ hs, hm]
  cases hs with
  | computes op job => exact Or.inl rfl
  | receives h src tag job => exact Or.inl rfl
  | sends h dst tag block _ job opened sent => exact Or.inr (hpost rfl hn)
  | refused h dst tag block e job opened unsent => exact Or.inr (hpost rfl hn)
  | unopened h dst tag f job unopened =>
    rw [stop_scheduler] at hn
    cases hn
  | evicts h e job freed => exact Or.inr (hpost rfl hn)
  | unfreed h f job unfreed =>
    rw [stop_scheduler] at hn
    cases hn
  | grants job held => exact Or.inl rfl
  | vacant job gone => exact Or.inr (hpost rfl hn)
  | retires tags job => exact Or.inr (hpost rfl hn)
  | withdrawn job => exact Or.inr (hpost rfl hn)

/-! ## Taking an event -/

/-- What taking an event comes to. -/
inductive Takes (net : Cluster) (n : Node α) : Cluster → Node α → Prop
  | faults (s : Scheduler α) (e : Event α) (events : List (Event α)) (f : Fault)
      (scheduler : n.scheduler = some s) (queue : n.events = e :: events)
      (react : s.react e = .error f) : Takes net n net ({ n with events } : Node α).stop
  | reacts (s : Scheduler α) (e : Event α) (events : List (Event α))
      (p : Scheduler α × Reaction α) (scheduler : n.scheduler = some s)
      (queue : n.events = e :: events) (react : s.react e = .ok p) :
      Takes net n (startAll net { n with events, scheduler := some p.1 } p.2.started).1
        ((startAll net { n with events, scheduler := some p.1 } p.2.started).2.pass p.2.passed)

theorem takes_of_takeEvent (h : takeEvent net n = some (net', n')) : n.Takes net net' n' := by
  unfold takeEvent at h
  split at h
  · rename_i s e events hs he
    dsimp only at h
    split at h
    · rename_i f hf
      cases h
      exact .faults s e events f hs he hf
    · rename_i s' r hr
      cases h
      exact .reacts s e events (s', r) hs he hr
  · cases h

/-- A scheduler that goes on after an event has reacted to it. -/
theorem Takes.reacts_of_alive (ht : n.Takes net net' n') (hs : n.scheduler = some s)
    (halive : n'.scheduler.isSome) : ∃ e events p, n.events = e :: events ∧ s.react e = .ok p ∧
      net' = (startAll net { n with events, scheduler := some p.1 } p.2.started).1 ∧
      n' = (startAll net { n with events, scheduler := some p.1 } p.2.started).2.pass p.2.passed := by
  cases ht with
  | faults _ e events f scheduler queue react =>
    rw [stop_scheduler] at halive
    cases halive
  | reacts _ e events p scheduler queue react =>
    obtain rfl : s = _ := Option.some.inj (hs.symm.trans scheduler)
    exact ⟨e, events, p, queue, react, rfl, rfl⟩

/-! ## Running a computation -/

/-- What a computation does to memory: it opens buffers, and stores into those that it writes or
poisons them. -/
inductive Touches (ws : HandleId → Prop) (n : Node α) : Node α → Prop
  | refl : Touches ws n n
  | opens {m : Node α} (h : HandleId) (touches : Touches ws n m) : Touches ws n (m.openHandle h).1
  | stores {m : Node α} (h : HandleId) (block : List α) (written : ws h)
      (touches : Touches ws n m) : Touches ws n (m.setHandle h ((m.handle h).store block))
  | poisons {m : Node α} (h : HandleId) (written : ws h) (touches : Touches ws n m) :
      Touches ws n (m.setHandle h (m.handle h).poison)

namespace Touches

variable {ws : HandleId → Prop}

theorem onlyMemory (ht : n.Touches ws n') : n.OnlyMemory n' := by
  induction ht with
  | refl => exact .refl n
  | opens h touches ih => exact ih.trans (onlyMemory_openHandle _ h)
  | stores h block written touches ih => exact ih.trans (onlyMemory_store _ h block)
  | poisons h written touches ih => exact ih.trans (onlyMemory_poison _ h)

theorem openAll {operands : List Operand} (ht : n.Touches ws m)
    (hw : ∀ h a, .data h a ∈ operands → a.writes = true → ws h) :
    n.Touches ws (m.openAll operands).1 := by
  induction operands generalizing m with
  | nil => exact ht
  | cons o operands ih =>
    have hrest := fun h a ha => hw h a (List.mem_cons_of_mem o ha)
    cases o with
    | scratch bytes =>
      unfold Node.openAll
      split
      · exact ih ht hrest
      · exact ht
    | data h a =>
      have hopen := ht.opens h
      unfold Node.openAll
      split
      · rename_i m' f hm
        rw [hm] at hopen
        exact hopen
      · rename_i m' block hm
        rw [hm] at hopen
        have hall := ih hopen hrest
        split
        · rename_i m'' views hm'
          rw [hm'] at hall
          exact hall
        · rename_i m'' hm'
          rw [hm'] at hall
          split
          · rename_i ha
            exact hall.poisons h (hw h a List.mem_cons_self ha)
          · exact hall

theorem storeAll {operands : List Operand} {views : List (View α)} (ht : n.Touches ws m)
    (hw : ∀ h a, .data h a ∈ operands → a.writes = true → ws h) :
    n.Touches ws (m.storeAll operands views) := by
  induction operands generalizing m views with
  | nil =>
    unfold Node.storeAll
    exact ht
  | cons o operands ih =>
    have hrest := fun h a ha => hw h a (List.mem_cons_of_mem o ha)
    cases views with
    | nil => cases o <;> unfold Node.storeAll <;> exact ht
    | cons v views =>
      cases o with
      | scratch bytes =>
        unfold Node.storeAll
        exact ih ht hrest
      | data h a =>
        unfold Node.storeAll
        dsimp only
        split
        · split
          · rename_i ha
            exact ih (ht.stores h _ (hw h a List.mem_cons_self ha)) hrest
          · exact ih ht hrest
        · exact ih ht hrest

theorem poisonAll {uses : List (HandleId × Access)} (ht : n.Touches ws m)
    (hw : ∀ u ∈ uses, u.2.writes = true → ws u.1) : n.Touches ws (m.poisonAll uses) := by
  induction uses generalizing m with
  | nil => exact ht
  | cons u uses ih =>
    rw [Node.poisonAll, List.foldl_cons]
    have hrest := fun v hv => hw v (List.mem_cons_of_mem u hv)
    split
    · rename_i hu
      exact ih (ht.poisons u.1 (hw u List.mem_cons_self hu)) hrest
    · exact ih ht hrest

end Touches

theorem touches_run (n : Node α) {op : Op α} {ws : HandleId → Prop}
    (hw : ∀ u ∈ op.uses, u.2.writes = true → ws u.1) : n.Touches ws (n.run op) := by
  have hdata : ∀ h a, .data h a ∈ op.operands → a.writes = true → ws h :=
    fun h a ha => hw (h, a) (Op.mem_uses_iff.mpr ha)
  have hopen : n.Touches ws (n.openAll op.operands).1 := Touches.refl.openAll hdata
  unfold Node.run
  split
  · rename_i m hm
    rw [hm] at hopen
    exact hopen
  · rename_i m views hm
    rw [hm] at hopen
    split
    · exact hopen.storeAll hdata
    · exact hopen.poisonAll hw

/-- Running a computation leaves the scheduler as it is. -/
theorem scheduler_work (n : Node α) (i : Nat) (w : Work α) :
    ((({ n with work := n.work.eraseIdx i } : Node α).run w.op).post (.complete w.id)).scheduler =
      n.scheduler := by
  rw [post_scheduler]
  exact (onlyMemory_run _ w.op).scheduler

/-! ## Finishing a receive -/

/-- How a receive has failed, with the rank that is to give up the copy. -/
inductive Fails (n : Node α) (a : Arrival) : Receipt → Node α → TaskError → Prop
  | refused (c : CommError) : Fails n a (.refused c) n (.transfer a.name c)
  | payload (payload : Payload) (block : List α) (opened : (n.openHandle a.handle).2 = .ok block)
      (misfit : block.length * Scalar.size α ≠ payload.length) :
      Fails n a (.delivered payload) (n.openHandle a.handle).1
        (.payload a.name (block.length * Scalar.size α) payload.length)

/-- What the end of a receive comes to. -/
inductive Finishes (n : Node α) (a : Arrival) : Receipt → Node α → Prop
  | accepts (payload : Payload) (block : List α) (opened : (n.openHandle a.handle).2 = .ok block)
      (fits : block.length * Scalar.size α = payload.length) :
      Finishes n a (.delivered payload) (((n.openHandle a.handle).1.setHandle a.handle
        (((n.openHandle a.handle).1.handle a.handle).store
          (Scalar.decodeBlock block.length payload))).post (.complete a.id))
  | abandons (r : Receipt) (m : Node α) (e : TaskError) (fails : n.Fails a r m e) :
      Finishes n a r (m.abandon a e)
  /-- The buffer cannot be opened: the end of the receive is never reported. -/
  | unopened (payload : Payload) (f : Fault) (unopened : (n.openHandle a.handle).2 = .error f) :
      Finishes n a (.delivered payload) (n.openHandle a.handle).1

theorem finishes_of_finish (n : Node α) (a : Arrival) {r : Receipt} (hr : r ≠ .waiting) :
    n.Finishes a r (n.finish a r) := by
  unfold finish
  split
  · exact absurd rfl hr
  · rename_i c
    exact .abandons _ _ _ (.refused c)
  · rename_i payload
    unfold accept
    rcases hopen : n.openHandle a.handle with ⟨m, f | block⟩
    · have h : (n.openHandle a.handle).2 = .error f := by rw [hopen]
      rw [show m = (n.openHandle a.handle).1 by rw [hopen]]
      exact .unopened payload f h
    · have h : (n.openHandle a.handle).2 = .ok block := by rw [hopen]
      obtain rfl : m = (n.openHandle a.handle).1 := by rw [hopen]
      dsimp only
      by_cases hfit : block.length * Scalar.size α = payload.length
      · rw [if_pos hfit]
        exact .accepts payload block h hfit
      · rw [if_neg hfit]
        exact .abandons _ _ _ (.payload payload block h hfit)

/-- A receive that fails changes no more than memory before the copy is given up. -/
theorem Fails.onlyMemory {a : Arrival} {r : Receipt} {e : TaskError} (hf : n.Fails a r m e) :
    n.OnlyMemory m := by
  cases hf with
  | refused c => exact .refl n
  | payload payload block opened misfit => exact onlyMemory_openHandle n a.handle

end

/-- Giving up a copy frees its memory and is reported as the failure of the receive. -/
theorem abandon_of_unpoisoned {a : Arrival} {e : TaskError}
    (ho : (n.handle a.handle).owner ≠ n.rank) (hp : (n.handle a.handle).memory ≠ .poisoned) :
    n.abandon a e = (n.setHandle a.handle { n.handle a.handle with
      state := .uninitialized, memory := .absent }).post (.fail a.id e) := by
  unfold abandon
  rw [flush_of_ne_owner ho.symm]
  have hfree : ({ n.handle a.handle with state := .uninitialized } : Handle α).evict =
      .ok { n.handle a.handle with state := .uninitialized, memory := .absent } := by
    unfold Handle.evict
    split
    · contradiction
    · rfl
  dsimp only
  rw [hfree]

/-- A poisoned copy is given up, but it is not freed, and nothing is reported. -/
theorem abandon_of_poisoned {a : Arrival} {e : TaskError}
    (ho : (n.handle a.handle).owner ≠ n.rank) (hp : (n.handle a.handle).memory = .poisoned) :
    n.abandon a e = n.setHandle a.handle { n.handle a.handle with state := .uninitialized } := by
  unfold abandon
  rw [flush_of_ne_owner ho.symm]
  unfold Handle.evict
  dsimp only
  rw [hp]

theorem handle_abandon_of_ne {a : Arrival} {e : TaskError} (hne : a.handle ≠ h) :
    (n.abandon a e).handle h = n.handle h := by
  unfold abandon
  dsimp only
  split
  · rw [handle_of_handles (post_handles _ _), handle_setHandle, if_neg fun hj => hne hj.1.symm]
  · rw [handle_setHandle, if_neg fun hj => hne hj.1.symm]

theorem state_abandon {a : Arrival} {e : TaskError} (hf : (n.handle a.handle).owner ≠ n.rank)
    (hh : a.handle < n.handles.length) :
    ((n.abandon a e).handle a.handle).state = .uninitialized := by
  by_cases hp : (n.handle a.handle).memory = .poisoned
  · rw [abandon_of_poisoned hf hp, handle_setHandle, if_pos ⟨rfl, hh⟩]
  · rw [abandon_of_unpoisoned hf hp, handle_of_handles (post_handles _ _), handle_setHandle,
      if_pos ⟨rfl, hh⟩]

theorem post_eq (n : Node α) (e : Event α) : n.post e = { n with events := (n.post e).events } := by
  unfold post
  split <;> rfl

/-- The end of a receive changes nothing but buffers, and what is reported of it. -/
theorem Finishes.eq [Scalar α] {a : Arrival} {r : Receipt} (hf : n.Finishes a r n') :
    n' = { n with handles := n'.handles, events := n'.events } := by
  cases hf with
  | accepts payload block opened fits =>
    rw [post_eq]
    rfl
  | abandons _ m e fails =>
    have hm := fails.onlyMemory.eq
    unfold abandon
    dsimp only
    split
    · rw [post_eq, hm]
      rfl
    · rw [hm]
      rfl
  | unopened payload f unopened => rfl

theorem Finishes.scheduler [Scalar α] {a : Arrival} {r : Receipt} (hf : n.Finishes a r n') :
    n'.scheduler = n.scheduler := by
  rw [hf.eq]

/-- As a receive ends no more than its end or its failure is reported. -/
theorem Finishes.events [Scalar α] {a : Arrival} {r : Receipt} (hf : n.Finishes a r n')
    (hn : n.scheduler.isSome) : n'.events = n.events ∨ n'.events = n.events ++ [.complete a.id] ∨
      ∃ e, n'.events = n.events ++ [.fail a.id e] := by
  cases hf with
  | accepts payload block opened fits => exact Or.inr (Or.inl (post_events _ _ hn))
  | abandons _ m e fails =>
    have hm := fails.onlyMemory
    unfold abandon
    dsimp only
    split
    · refine Or.inr (Or.inr ⟨e, ?_⟩)
      rw [post_events]
      · rw [← hm.events]
        rfl
      · show m.scheduler.isSome
        rw [hm.scheduler]
        exact hn
    · exact Or.inl hm.events
  | unopened payload f unopened => exact Or.inl rfl

/-! ## What stays the same -/

@[simp] theorem setting_stop (n : Node α) : n.stop.setting = n.setting := by
  unfold stop
  split <;> rfl

@[simp] theorem setting_note (n : Node α) (e : TaskError) : (n.note e).setting = n.setting := rfl

theorem setting_abandon (n : Node α) (a : Arrival) (e : TaskError) :
    (n.abandon a e).setting = n.setting := by
  have hflush : ((n.handle a.handle).flush n.rank).1.label = (n.handle a.handle).label := by
    unfold Handle.flush
    split <;> rfl
  unfold abandon
  dsimp only
  split
  · rename_i copy hcopy
    rw [setting_post]
    refine setting_setHandle (Eq.trans ?_ hflush)
    unfold Handle.evict at hcopy
    split at hcopy
    · cases hcopy
    · cases hcopy
      rfl
  · exact setting_setHandle hflush

variable [Scalar α]

theorem Starts.setting (hs : n.Starts net t net' n') : n'.setting = n.setting := by
  cases hs with
  | computes op job => rfl
  | receives h src tag job => rfl
  | sends h dst tag block _ job opened sent =>
    rw [setting_post]
    exact (onlyMemory_openHandle n h).setting
  | refused h dst tag block e job opened unsent =>
    rw [setting_post, setting_note]
    exact (onlyMemory_openHandle n h).setting
  | unopened h dst tag f job unopened =>
    rw [setting_stop]
    exact (onlyMemory_openHandle n h).setting
  | evicts h e job freed =>
    rw [setting_post]
    exact (onlyMemory_evict freed).setting
  | unfreed h f job unfreed => exact setting_stop n
  | grants job held => rfl
  | vacant job gone => exact setting_post n _
  | retires tags job => exact setting_post n _
  | withdrawn job => exact setting_post n _

/-- What every start keeps is kept as tasks are started in order, if it is kept as well when those
that are not started any more are given up. -/
theorem startAll_of_starts {P : Node α → Prop} {tasks : List (Task α)} (hn : P n)
    (hstarts : ∀ {net net' : Cluster} {m m' : Node α} {t : Task α}, t ∈ tasks →
      m.setting = n.setting → m.Starts net t net' m' → P m → P m')
    (hclose : ∀ {m : Node α} (ks : List TaskId), P m → P (m.close ks)) :
    P (startAll net n tasks).2 := by
  suffices h : ∀ (todo : List (Task α)) (net : Cluster) (m : Node α), todo ⊆ tasks →
      m.setting = n.setting → P m → P (startAll net m todo).2 from
    h tasks net n (List.Subset.refl _) rfl hn
  intro todo
  induction todo with
  | nil => exact fun _ _ _ _ hm => hm
  | cons t todo ih =>
    intro net m hsub hset hm
    have hs := starts_of_start net m t
    have hfirst := hstarts (hsub List.mem_cons_self) hset hs hm
    unfold startAll
    dsimp only
    split
    · exact ih _ _ (List.subset_of_cons_subset hsub) (hs.setting.trans hset) hfirst
    · exact hclose _ hfirst

/-- What holds of a rank and of what is still to be started, and is kept by every start that does
not stop the scheduler, holds once all is started. -/
theorem startAll_of_alive {P : List (Task α) → Node α → Prop} {tasks : List (Task α)} (hn : P tasks n)
    (hstarts : ∀ {net net' : Cluster} {m m' : Node α} {t : Task α} {todo : List (Task α)},
      m.Starts net t net' m' → m'.scheduler.isSome → P (t :: todo) m → P todo m')
    (halive : (startAll net n tasks).2.scheduler.isSome) : P [] (startAll net n tasks).2 := by
  induction tasks generalizing net n with
  | nil => exact hn
  | cons t tasks ih =>
    unfold startAll at halive ⊢
    dsimp only at halive ⊢
    by_cases hgo : (start net n t).2.scheduler.isSome
    · rw [if_pos hgo] at halive ⊢
      exact ih (hstarts (starts_of_start net n t) hgo hn) halive
    · rw [if_neg hgo] at halive
      exact absurd halive hgo

/-- Starting a task changes nothing of buffers but their memory. -/
theorem Starts.bare (hs : n.Starts net t net' n') (h : HandleId) :
    (n'.handle h).bare = (n.handle h).bare := by
  rcases hs.handles with hsame | ⟨j, dst, tag, -, hopen⟩ | ⟨j, e, -, freed, hfree⟩
  · rw [handle_of_handles hsame]
  · rw [handle_of_handles hopen]
    exact (onlyMemory_openHandle n j).bare h
  · rw [handle_of_handles hfree]
    exact (onlyMemory_evict freed).bare h

theorem bare_startAll (net : Cluster) (n : Node α) (tasks : List (Task α)) (h : HandleId) :
    ((startAll net n tasks).2.handle h).bare = (n.handle h).bare :=
  startAll_of_starts (P := fun m => (m.handle h).bare = (n.handle h).bare) rfl
    (fun _ _ hs hm => (hs.bare h).trans hm) fun _ hm => hm

theorem setting_startAll (net : Cluster) (n : Node α) (tasks : List (Task α)) :
    (startAll net n tasks).2.setting = n.setting :=
  startAll_of_starts (P := fun m => m.setting = n.setting) rfl
    (fun _ _ hs hm => hs.setting.trans hm) fun _ hm => hm

theorem Takes.setting (ht : n.Takes net net' n') : n'.setting = n.setting := by
  cases ht with
  | faults s e events f scheduler queue react => exact setting_stop _
  | reacts s e events p scheduler queue react => exact setting_startAll _ _ _

theorem Finishes.setting {a : Arrival} {r : Receipt} (hf : n.Finishes a r n') :
    n'.setting = n.setting := by
  cases hf with
  | accepts payload block opened fits =>
    rw [setting_post]
    exact ((onlyMemory_openHandle n a.handle).trans (onlyMemory_store _ a.handle _)).setting
  | abandons _ m e fails => exact (setting_abandon m a e).trans fails.onlyMemory.setting
  | unopened payload f unopened => exact (onlyMemory_openHandle n a.handle).setting

/-- The end of a receive changes nothing of another buffer but its memory. -/
theorem Finishes.bare_of_ne {a : Arrival} {r : Receipt} (hf : n.Finishes a r n')
    (hne : a.handle ≠ h) : (n'.handle h).bare = (n.handle h).bare := by
  have hopen : n.OnlyMemory _ := onlyMemory_openHandle n a.handle
  cases hf with
  | accepts payload block opened fits =>
    rw [handle_of_handles (post_handles _ _)]
    exact (hopen.trans (onlyMemory_store _ a.handle _)).bare h
  | abandons _ m e fails =>
    rw [handle_abandon_of_ne hne]
    exact fails.onlyMemory.bare h
  | unopened payload f unopened => exact hopen.bare h

/-! ## Whatever happens -/

/-- What happens to a rank comes to one of four things: a call, or one of the three things that it
does by itself. -/
inductive Undergoes (net : Cluster) (n : Node α) : Happening α → Cluster → Node α → Prop
  | calls {a : Happening α} {n' : Node α} (call : a.isCall = true) (calls : n.Calls n')
      (edits : n.Edits a n') : Undergoes net n a net n'
  | takes {net' : Cluster} {n' : Node α} (takes : n.Takes net net' n') :
      Undergoes net n .take net' n'
  | works (i : Nat) (w : Work α) (queued : n.work[i]? = some w) : Undergoes net n (.work i) net
      ((({ n with work := n.work.eraseIdx i } : Node α).run w.op).post (.complete w.id))
  | arrives (i : Nat) (c : Arrival) (r : Receipt) {n' : Node α} (pending : n.arrivals[i]? = some c)
      (receipt : net.receipts.find? c.ticket = some r)
      (finishes : Finishes { n with arrivals := n.arrivals.eraseIdx i } c r n') :
      Undergoes net n (.arrive i) (net.forget c.ticket) n'

theorem undergoes_of_undergo {a : Happening α} (h : n.undergo net a = some (net', n')) :
    n.Undergoes net a net' n' := by
  by_cases ha : a.isCall = true
  · obtain ⟨rfl, hc⟩ := calls_of_undergo ha h
    exact .calls ha hc (edits_of_undergo ha h)
  · cases a with
    | take => exact .takes (takes_of_takeEvent h)
    | work i =>
      obtain ⟨m, hm, heq⟩ := Option.map_eq_some_iff.mp h
      cases heq
      obtain ⟨w, hw, rfl⟩ := runWork_eq_some_iff.mp hm
      exact .works i w hw
    | arrive i =>
      obtain ⟨c, r, hc, hr, hwait, rfl, rfl⟩ := takeArrival_eq_some_iff.mp h
      exact .arrives i c r hc hr (finishes_of_finish _ c hwait)
    | _ => exact absurd rfl ha

/-- What a rank does by itself changes nothing of a buffer but its memory, unless a receive of the
buffer fails and the copy is given up. -/
theorem bare_or_abandons {a : Happening α} (ha : a.isCall = false)
    (step : n.undergo net a = some (net', n')) (h : HandleId) :
    (n'.handle h).bare = (n.handle h).bare ∨ ∃ i c r m e, a = .arrive i ∧
      n.arrivals[i]? = some c ∧ net.receipts.find? c.ticket = some r ∧
      Fails { n with arrivals := n.arrivals.eraseIdx i } c r m e ∧ c.handle = h ∧
      n' = m.abandon c e := by
  cases undergoes_of_undergo step with
  | calls call calls edits => cases ha.symm.trans call
  | takes takes =>
    cases takes with
    | faults s e events f scheduler queue react =>
      have hstop : (Node.stop { n with events }).handle h = n.handle h :=
        handle_of_handles (stop_handles _) h
      exact Or.inl (congrArg Handle.bare hstop)
    | reacts s e events p scheduler queue react =>
      exact Or.inl (bare_startAll net { n with events, scheduler := some p.1 } p.2.started h)
  | works i w queued =>
    rw [handle_of_handles (post_handles _ _)]
    exact Or.inl ((onlyMemory_run _ w.op).bare h)
  | arrives i c r pending receipt finishes =>
    by_cases hch : c.handle = h
    · subst hch
      cases finishes with
      | accepts payload block opened fits =>
        rw [handle_of_handles (post_handles _ _)]
        exact Or.inl (((onlyMemory_openHandle _ c.handle).trans
          (onlyMemory_store _ c.handle _)).bare c.handle)
      | abandons _ m e fails => exact Or.inr ⟨i, c, r, m, e, rfl, pending, receipt, fails, rfl, rfl⟩
      | unopened payload f unopened => exact Or.inl ((onlyMemory_openHandle _ c.handle).bare c.handle)
    · exact Or.inl (finishes.bare_of_ne hch)

theorem setting_of_undergo {a : Happening α} (h : n.undergo net a = some (net', n')) :
    n'.setting = n.setting := by
  cases undergoes_of_undergo h with
  | calls call calls edits => exact calls.setting
  | takes takes => exact takes.setting
  | works i w queued =>
    rw [setting_post]
    exact (onlyMemory_run _ w.op).setting
  | arrives i c r pending receipt finishes => exact finishes.setting

/-! ## What a rank can run -/

omit [Scalar α] in
theorem codelets_stop (n : Node α) : n.stop.codelets = n.codelets := by
  unfold stop
  split <;> rfl

theorem Starts.codelets (hs : n.Starts net t net' n') : n'.codelets = n.codelets := by
  cases hs with
  | computes op job => rfl
  | receives h src tag job => rfl
  | sends h dst tag block _ job opened sent => exact post_codelets _ _
  | refused h dst tag block e job opened unsent => exact post_codelets _ _
  | unopened h dst tag f job unopened => exact codelets_stop _
  | evicts h e job freed => exact post_codelets _ _
  | unfreed h f job unfreed => exact codelets_stop n
  | grants job held => rfl
  | vacant job gone => exact post_codelets _ _
  | retires tags job => exact post_codelets _ _
  | withdrawn job => exact post_codelets _ _

theorem codelets_startAll (net : Cluster) (n : Node α) (tasks : List (Task α)) :
    (startAll net n tasks).2.codelets = n.codelets :=
  startAll_of_starts (P := fun m => m.codelets = n.codelets) rfl
    (fun _ _ hs hm => hs.codelets.trans hm) fun _ hm => hm

/-- Whatever happens to a rank, it can run the same operations. -/
theorem codelets_of_undergo {a : Happening α} (step : n.undergo net a = some (net', n')) :
    n'.codelets = n.codelets := by
  cases undergoes_of_undergo step with
  | calls call calls edits => exact calls.codelets
  | takes takes =>
    cases takes with
    | faults s e events f scheduler queue react => exact codelets_stop _
    | reacts s e events p scheduler queue react => exact codelets_startAll _ _ _
  | works i w queued =>
    rw [post_codelets]
    exact (onlyMemory_run _ w.op).codelets
  | arrives i c r pending receipt finishes => rw [finishes.eq]

/-- What is settled when a rank is set up stays so through every course. -/
theorem Course.setting {n₀ : Node α} {scenes : List (Scene α)} (course : n₀.Course scenes n) :
    n.setting = n₀.setting := by
  induction course with
  | nil => rfl
  | snoc a course step ih => exact (setting_of_undergo step).trans ih

end Node

end TiledTensor
