import TiledTensor.Proofs.Jobs

/-!
# Computations that fault

A computation that faults ends like any other, and leaves poisoned what it was writing.  Nothing
else poisons a buffer (`Node.Course.spoiled`), so that copies of other ranks' buffers never are, and
computations, accessors, receives and evictions all go on.

Messages do not: the scheduler itself opens the buffer that it sends, and stops where it cannot.
`Node.Course.serves_iff` says that a rank stops serving in this way and in no other.
-/

namespace TiledTensor

variable {α : Type}

namespace Scene

/-- A computation poisons a buffer that it writes. -/
def Spoils (g : Scene α) (h : HandleId) : Prop :=
  ∃ i w a, g.happening = .work i ∧ g.before.work[i]? = some w ∧ (h, a) ∈ w.op.uses ∧
    a.writes = true ∧ (g.before.handle h).memory ≠ .poisoned ∧ (g.after.handle h).memory = .poisoned

/-- The scheduler comes to send a buffer that is poisoned. -/
def Sinks (g : Scene α) : Prop :=
  ∃ e r, g.taken = some (e, r) ∧ ∃ t ∈ r.started, ∃ h dst tag, t.job = .send h dst tag ∧
    (g.before.handle h).memory = .poisoned

end Scene

namespace Node

/-- The scheduler runs, and each job that it has started is accounted for once: its end has been
reported, is on its way to the scheduler, or is still to come. -/
structure Serves (n : Node α) (scenes : List (Scene α)) : Prop where
  alive : n.scheduler.isSome
  once : ∀ t ∈ (Scene.record scenes).started, t.job.labours = true →
    n.dues (Scene.record scenes) [] t.id = 1

/-- Every buffer can be allocated. -/
def Roomy [Scalar α] (n : Node α) : Prop :=
  ∀ h, allocatable ((n.handle h).count * Scalar.size α) = true

/-- Only some buffers have been poisoned. -/
def OnlyPoisons (ws : HandleId → Prop) (n n' : Node α) : Prop :=
  ∀ h, (n'.handle h).memory = .poisoned → (n.handle h).memory = .poisoned ∨ ws h

variable {n n' m : Node α} {ws : HandleId → Prop} {net net' : Cluster} {h : HandleId}
  {t : Task α} {tasks : List (Task α)} {a : Happening α}

/-! ## What poisons buffers -/

namespace OnlyPoisons

theorem refl (ws : HandleId → Prop) (n : Node α) : OnlyPoisons ws n n := fun _ hp => Or.inl hp

theorem trans (h₁ : OnlyPoisons ws n m) (h₂ : OnlyPoisons ws m n') : OnlyPoisons ws n n' := by
  intro j hj
  rcases h₂ j hj with hj | hj
  · exact h₁ j hj
  · exact Or.inr hj

theorem of_handles (hh : n'.handles = n.handles) : OnlyPoisons ws n n' := by
  intro j hj
  rw [handle_of_handles hh] at hj
  exact Or.inl hj

theorem congr (h₁ : OnlyPoisons ws n m) (hh : n'.handles = m.handles) : OnlyPoisons ws n n' :=
  h₁.trans (of_handles hh)

theorem setHandle {e : Handle α} (he : e.memory = .poisoned → (n.handle h).memory = .poisoned ∨ ws h) :
    OnlyPoisons ws n (n.setHandle h e) := by
  intro j hj
  rw [handle_setHandle] at hj
  split at hj
  · rename_i hjh
    exact hjh.1 ▸ he hj
  · exact Or.inl hj

theorem store (n : Node α) (h : HandleId) (block : List α) :
    OnlyPoisons ws n (n.setHandle h ((n.handle h).store block)) := by
  refine setHandle fun hp => Or.inl ?_
  unfold Handle.store at hp
  split at hp
  · cases hp
  · exact hp

theorem markWritten (n : Node α) (uses : List (HandleId × Access)) :
    OnlyPoisons ws n (n.markWritten uses) := by
  induction uses generalizing n with
  | nil => exact refl ws n
  | cons u uses ih =>
    rw [Node.markWritten, List.foldl_cons]
    split
    · have hmark : OnlyPoisons ws n (n.setHandle u.1 (n.handle u.1).markWritten) := setHandle Or.inl
      exact hmark.trans (ih _)
    · exact ih n

theorem abandon (n : Node α) (a : Arrival) (e : TaskError) : OnlyPoisons ws n (n.abandon a e) := by
  have hflush : ((n.handle a.handle).flush n.rank).1.memory = (n.handle a.handle).memory := by
    unfold Handle.flush
    split <;> rfl
  unfold Node.abandon
  dsimp only
  split
  · rename_i copy hcopy
    refine (setHandle fun hp => ?_).congr (post_handles _ _)
    unfold Handle.evict at hcopy
    split at hcopy
    · cases hcopy
    · cases hcopy
      cases hp
  · exact setHandle fun hp => Or.inl (hflush ▸ hp)

end OnlyPoisons

section

variable [Scalar α]

theorem Roomy.of_setting (hr : n.Roomy) (hs : n'.setting = n.setting) : n'.Roomy := by
  intro h
  rw [count_of_setting hs]
  exact hr h

/-- Opening a buffer that can be allocated does not poison it. -/
theorem Roomy.openHandle (hr : n.Roomy) (h : HandleId) : OnlyPoisons ws n (n.openHandle h).1 := by
  rw [openHandle_fst]
  refine .setHandle fun hp => Or.inl ?_
  unfold Handle.access at hp
  split at hp
  · assumption
  · exact hp
  · rw [if_pos (hr h)] at hp
    cases hp

/-- A computation poisons no buffer but those that it writes. -/
theorem Touches.onlyPoisons (ht : n.Touches ws n') (hr : n.Roomy) : OnlyPoisons ws n n' := by
  induction ht with
  | refl => exact .refl ws n
  | opens h touches ih =>
    exact ih.trans ((hr.of_setting touches.onlyMemory.setting).openHandle h)
  | stores h block written touches ih => exact ih.trans (.store _ h block)
  | poisons h written touches ih => exact ih.trans (.setHandle fun _ => Or.inr written)

/-- No call poisons a buffer. -/
theorem Edits.onlyPoisons (he : n.Edits a n') (hr : n.Roomy) : OnlyPoisons ws n n' := by
  cases he with
  | idle flush transfer handles => exact .of_handles handles
  | writes uses own flush transfer handles => exact (OnlyPoisons.markWritten n uses).congr handles
  | opens k c held => exact hr.openHandle c.handle
  | stores k c block held writes => exact (hr.openHandle c.handle).trans (.store _ _ _)
  | asks h t tag name asks =>
    refine OnlyPoisons.congr ?_ (enqueue_handles _ _ _ _)
    exact .setHandle Or.inl
  | sends h t tag name sends =>
    refine OnlyPoisons.congr ?_ (enqueue_handles _ _ _ _)
    exact .setHandle Or.inl
  | forgets h nothing =>
    refine .setHandle fun hp => Or.inl ?_
    unfold Handle.flush at hp
    split at hp <;> exact hp
  | drops h foreign held =>
    refine OnlyPoisons.congr ?_ (enqueue_handles _ _ _ _)
    exact .setHandle Or.inl

/-- Nothing that a scheduler starts poisons a buffer at once. -/
theorem Starts.onlyPoisons (hs : n.Starts net t net' n') (hr : n.Roomy) : OnlyPoisons ws n n' := by
  rcases hs.handles with hsame | ⟨j, dst, tag, -, hopen⟩ | ⟨j, e, -, freed, hfree⟩
  · exact .of_handles hsame
  · exact (hr.openHandle j).congr hopen
  · refine (OnlyPoisons.setHandle fun hp => ?_).congr hfree
    unfold Handle.evict at freed
    split at freed
    · cases freed
    · cases freed
      cases hp

theorem Roomy.startAll (hr : n.Roomy) (net : Cluster) (tasks : List (Task α)) :
    OnlyPoisons ws n (startAll net n tasks).2 :=
  startAll_of_starts (.refl ws n) (fun _ hset hs hm => hm.trans (hs.onlyPoisons (hr.of_setting hset)))
    fun _ hm => hm

theorem Finishes.onlyPoisons {c : Arrival} {r : Receipt} (hf : n.Finishes c r n') (hr : n.Roomy) :
    OnlyPoisons ws n n' := by
  cases hf with
  | accepts payload block opened fits =>
    exact ((hr.openHandle c.handle).trans (.store _ _ _)).congr (post_handles _ _)
  | abandons _ m e fails =>
    refine OnlyPoisons.trans ?_ (.abandon m c e)
    cases fails with
    | refused e => exact .refl ws n
    | payload payload block opened misfit => exact hr.openHandle c.handle
  | unopened payload f unopened => exact hr.openHandle c.handle

/-- Computations alone poison buffers. -/
theorem onlyPoisons_of_undergo (hr : n.Roomy) (h : n.undergo net a = some (net', n')) :
    OnlyPoisons (fun h => ∃ i w b, a = .work i ∧ n.work[i]? = some w ∧ (h, b) ∈ w.op.uses ∧
      b.writes = true) n n' := by
  cases undergoes_of_undergo h with
  | calls call calls edits => exact edits.onlyPoisons hr
  | takes takes =>
    cases takes with
    | faults s e events f scheduler queue react => exact .of_handles (stop_handles _)
    | reacts s e events p scheduler queue react =>
      exact Roomy.startAll (n := { n with events, scheduler := some p.1 }) hr net p.2.started
  | works i w queued =>
    refine OnlyPoisons.congr ?_ (post_handles _ _)
    refine Touches.onlyPoisons (n := { n with work := n.work.eraseIdx i }) (touches_run _ ?_) hr
    intro u hu hwrites
    exact ⟨i, w, u.2, rfl, queued, hu, hwrites⟩
  | arrives i c r pending receipt finishes => exact finishes.onlyPoisons hr

/-! ## What goes on -/

variable {s : Scheduler α} {b : Scheduler.Record α} {n₀ : Node α} {scenes : List (Scene α)}

/-- Copies of other ranks' buffers are not poisoned. -/
def Unspoiled (n : Node α) : Prop :=
  ∀ h, (n.handle h).owner ≠ n.rank → (n.handle h).memory ≠ .poisoned

/-- A computation that is ready writes buffers of the rank itself. -/
def Lawful (n : Node α) : Prop :=
  ∀ w ∈ n.work, ∀ u ∈ w.op.uses, u.2.writes = true → (n.handle u.1).owner = n.rank

omit [Scalar α] in
theorem Lawful.of_setting (hl : n.Lawful) (hs : n'.setting = n.setting) (hw : n'.work ⊆ n.work) :
    n'.Lawful := by
  intro w hin u hu hwrites
  rw [owner_of_setting hs, rank_of_setting hs]
  exact hl w (hw hin) u hu hwrites

theorem Starts.work (hs : n.Starts net t net' n') : n'.work = n.work ∨
    ∃ op, t.job = .compute op ∧ n'.work = n.work ++ [⟨t.id, op⟩] := by
  cases hs with
  | computes op job => exact Or.inr ⟨op, job, rfl⟩
  | receives h src tag job => exact Or.inl rfl
  | sends h dst tag block _ job opened sent => exact Or.inl (post_work _ _)
  | refused h dst tag block e job opened unsent => exact Or.inl (post_work _ _)
  | unopened h dst tag f job unopened =>
    refine Or.inl ?_
    unfold stop
    split <;> rfl
  | evicts h e job freed => exact Or.inl (post_work _ _)
  | unfreed h f job unfreed =>
    refine Or.inl ?_
    unfold stop
    split <;> rfl
  | grants job held => exact Or.inl rfl
  | vacant job gone => exact Or.inl (post_work _ _)
  | retires tags job => exact Or.inl (post_work _ _)
  | withdrawn job => exact Or.inl (post_work _ _)

/-- Computations that are started on a rank write buffers of the rank itself. -/
theorem Lawful.startAll (hl : n.Lawful) (net : Cluster)
    (hmay : ∀ t ∈ tasks, ∀ op, t.job = .compute op → n.May t) : (startAll net n tasks).2.Lawful := by
  refine startAll_of_starts hl ?_ fun _ hm => hm
  intro net net' m m' t hin hset hs hm w hw u hu hwrites
  rw [owner_of_setting hs.setting, rank_of_setting hs.setting]
  rcases hs.work with hwork | ⟨op, hjob, hwork⟩
  · rw [hwork] at hw
    exact hm w hw u hu hwrites
  · rw [hwork] at hw
    rcases List.mem_append.mp hw with hw | hw
    · exact hm w hw u hu hwrites
    · obtain rfl := List.mem_singleton.mp hw
      have hown := (hmay t hin op hjob).of_setting hset
      unfold May at hown
      rw [hjob] at hown
      exact hown.2 u hu hwrites

omit [Scalar α] in
/-- What is started with a reaction may be queued on the rank, unless it is an accessor. -/
theorem Kept.may_of_started (hk : Kept b tasks n s) (ht : t ∈ b.started)
    (hj : t.job.labours = true) : n.May t :=
  hk.may t (List.mem_append_left _ (hk.submitted_of_started ht hj))

theorem Lawful.undergo (hl : n.Lawful) (hk : ∀ s, n.scheduler = some s → ∃ b, Kept b [] n s)
    (h : n.undergo net a = some (net', n')) : n'.Lawful := by
  cases undergoes_of_undergo h with
  | calls call calls edits => exact hl.of_setting calls.setting (calls.work ▸ fun _ hw => hw)
  | takes takes =>
    cases takes with
    | faults s e events f scheduler queue react =>
      refine hl.of_setting (setting_stop _) ?_
      unfold stop
      split <;> exact fun _ hw => hw
    | reacts s e events p scheduler queue react =>
      obtain ⟨b, hk⟩ := hk s scheduler
      have hk' := hk.of_react queue react
      refine Lawful.startAll (n := { n with events, scheduler := some p.1 }) hl net ?_
      intro t ht op hjob
      exact hk'.may_of_started (hk'.starting ht) (by rw [hjob]; rfl)
  | works i w queued =>
    have hrun := onlyMemory_run ({ n with work := n.work.eraseIdx i } : Node α) w.op
    refine hl.of_setting ((setting_post _ _).trans hrun.setting) ?_
    rw [post_work, hrun.work]
    exact fun _ => List.mem_of_mem_eraseIdx
  | arrives i c r pending receipt finishes =>
    refine hl.of_setting finishes.setting ?_
    rw [finishes.eq]
    exact fun _ hw => hw

omit [Scalar α] in
theorem Unspoiled.of_onlyPoisons (hu : n.Unspoiled) (hs : n'.setting = n.setting)
    (ho : OnlyPoisons (fun h => (n.handle h).owner = n.rank) n n') : n'.Unspoiled := by
  intro h howner hp
  rw [owner_of_setting hs, rank_of_setting hs] at howner
  exact (ho h hp).elim (hu h howner) howner

/-! ### Starting tasks -/

theorem Starts.poisoned (hs : n.Starts net t net' n') (hp : (n.handle h).memory = .poisoned) :
    (n'.handle h).memory = .poisoned := by
  rcases hs.handles with hsame | ⟨j, dst, tag, -, hopen⟩ | ⟨j, e, -, freed, hfree⟩
  · rw [handle_of_handles hsame]
    exact hp
  · rw [handle_of_handles hopen]
    exact (onlyMemory_openHandle n j).poisoned h hp
  · rw [handle_of_handles hfree]
    exact (onlyMemory_evict freed).poisoned h hp

theorem startAll_cons_of_stopped (hstop : (start net n t).2.scheduler = none) :
    (startAll net n (t :: tasks)).2.scheduler = none := by
  unfold startAll
  dsimp only
  rw [hstop]
  exact hstop

/-- A scheduler that comes to send a poisoned buffer stops. -/
theorem startAll_stops {dst : Rank} {tag : Tag} (ht : t ∈ tasks) (hjob : t.job = .send h dst tag)
    (hp : (n.handle h).memory = .poisoned) : (startAll net n tasks).2.scheduler = none := by
  induction tasks generalizing net n with
  | nil => cases ht
  | cons u tasks ih =>
    rcases List.mem_cons.mp ht with rfl | ht
    · refine startAll_cons_of_stopped ?_
      have hopen : (n.openHandle h).2 = .error .poisoned := by
        rw [openHandle_snd, access_of_poisoned hp]
      unfold start
      rw [hjob]
      dsimp only
      split
      · exact stop_scheduler _
      · rename_i m block hm
        rw [hm] at hopen
        cases hopen
    · by_cases hgo : (start net n u).2.scheduler.isSome
      · unfold startAll
        dsimp only
        rw [if_pos hgo]
        exact ih ht ((starts_of_start net n u).poisoned hp)
      · exact startAll_cons_of_stopped (Option.not_isSome_iff_eq_none.mp hgo)

/-- Nothing else that it starts stops a scheduler. -/
theorem Starts.alive (hs : n.Starts net t net' n') (hn : n.scheduler.isSome) (hr : n.Roomy)
    (hu : n.Unspoiled) (hmay : t.job.labours = true → n.May t)
    (hsend : ∀ h dst tag, t.job = .send h dst tag → (n.handle h).memory ≠ .poisoned) :
    n'.scheduler.isSome := by
  have hpost : ∀ {m : Node α} {e}, m.scheduler.isSome → (m.post e).scheduler.isSome := by
    intro m e hm
    rw [post_scheduler]
    exact hm
  cases hs with
  | computes op job => exact hn
  | receives b src tag job => exact hn
  | sends b dst tag block _ job opened sent => exact hpost hn
  | refused b dst tag block e job opened unsent =>
    refine hpost ?_
    show (Option.map _ n.scheduler).isSome
    rw [Option.isSome_map]
    exact hn
  | unopened b dst tag f job unopened =>
    have hbefore : OnlyPoisons (fun _ => False) n (n.openHandle b).1 := hr.openHandle b
    have hp := (hbefore b (poisoned_of_openHandle unopened)).resolve_right id
    exact absurd hp (hsend b dst tag job)
  | evicts b e job freed => exact hpost hn
  | unfreed b f job unfreed =>
    have hm := hmay (by rw [job]; rfl)
    unfold May at hm
    rw [job] at hm
    refine absurd ?_ (hu b hm.2)
    unfold Handle.evict at unfreed
    split at unfreed
    · assumption
    · cases unfreed
  | grants job held => exact hn
  | vacant job gone => exact hpost hn
  | retires tags job => exact hpost hn
  | withdrawn job => exact hpost hn

theorem startAll_alive (hn : n.scheduler.isSome) (hr : n.Roomy) (hu : n.Unspoiled)
    (hmay : ∀ t ∈ tasks, t.job.labours = true → n.May t)
    (hsend : ∀ t ∈ tasks, ∀ h dst tag, t.job = .send h dst tag → (n.handle h).memory ≠ .poisoned) :
    (startAll net n tasks).2.scheduler.isSome := by
  induction tasks generalizing net n with
  | nil => exact hn
  | cons t tasks ih =>
    have hs := starts_of_start net n t
    have hgo := hs.alive hn hr hu (hmay t List.mem_cons_self) (hsend t List.mem_cons_self)
    have hspares : OnlyPoisons (fun _ => False) n (start net n t).2 := hs.onlyPoisons hr
    unfold startAll
    dsimp only
    rw [if_pos hgo]
    refine ih hgo (hr.of_setting hs.setting) (hu.of_onlyPoisons hs.setting (hs.onlyPoisons hr)) ?_ ?_
    · intro u hin hj
      exact (hmay u (List.mem_cons_of_mem t hin) hj).of_setting hs.setting
    · intro u hin b dst tag hjob hp
      have hbefore := (hspares b hp).resolve_right id
      exact hsend u (List.mem_cons_of_mem t hin) b dst tag hjob hbefore

/-! ### Courses -/

theorem Course.lawful (course : n₀.Course scenes n) (fresh : n₀.Fresh) : n.Lawful := by
  induction course with
  | nil =>
    intro w hw
    rw [fresh.work] at hw
    cases hw
  | snoc a course step ih => exact ih.undergo (fun s hs => ⟨_, course.kept fresh hs⟩) step

/-- Every buffer that is poisoned was poisoned by a computation that was writing it. -/
theorem Course.spoiled (course : n₀.Course scenes n) (roomy : n₀.Roomy)
    (clean : ∀ h, (n₀.handle h).memory ≠ .poisoned) (hp : (n.handle h).memory = .poisoned) :
    ∃ g ∈ scenes, g.Spoils h := by
  induction course with
  | nil => exact absurd hp (clean h)
  | @snoc scenes n net net' n' a course step ih =>
    by_cases hbefore : (n.handle h).memory = .poisoned
    · obtain ⟨g, hg, hs⟩ := ih hbefore
      exact ⟨g, List.mem_append_left _ hg, hs⟩
    · obtain ⟨i, w, b, ha, hw, hb, hwrites⟩ :=
        (onlyPoisons_of_undergo (roomy.of_setting course.setting) step h hp).resolve_left hbefore
      exact ⟨_, List.mem_append_right _ List.mem_cons_self, i, w, b, ha, hw, hb, hwrites, hbefore, hp⟩

theorem Course.unspoiled (course : n₀.Course scenes n) (fresh : n₀.Fresh) (roomy : n₀.Roomy)
    (clean : ∀ h, (n₀.handle h).memory ≠ .poisoned) : n.Unspoiled := by
  induction course with
  | nil => exact fun h _ => clean h
  | snoc a course step ih =>
    refine ih.of_onlyPoisons (setting_of_undergo step) ?_
    intro h hp
    refine (onlyPoisons_of_undergo (roomy.of_setting course.setting) step h hp).imp_right ?_
    rintro ⟨i, w, b, -, hw, hb, hwrites⟩
    exact course.lawful fresh w (List.mem_of_getElem? hw) (h, b) hb hwrites

/-- A scheduler that comes to send a poisoned buffer stops for good. -/
theorem Course.stopped (course : n₀.Course scenes n) {g : Scene α} (hg : g ∈ scenes)
    (hs : g.Sinks) : n.scheduler = none := by
  induction course with
  | nil => cases hg
  | @snoc scenes n net net' n' a course step ih =>
    rcases List.mem_append.mp hg with hg | hg
    · have hdead := ih hg
      refine Option.not_isSome_iff_eq_none.mp fun halive => ?_
      have := alive_of_undergo step halive
      rw [hdead] at this
      cases this
    · obtain rfl := List.mem_singleton.mp hg
      obtain ⟨e, r, htaken, t, ht, b, dst, tag, hjob, hp⟩ := hs
      unfold Scene.taken at htaken
      dsimp only at htaken hp
      clear hg ih
      split at htaken
      · rename_i s e' events hsched hev
        split at htaken
        · rename_i p hreact
          cases htaken
          cases (takeEvent_of_react hsched hev hreact).symm.trans step
          exact startAll_stops (n := { n with events, scheduler := some p.1 }) ht hjob hp
        · cases htaken
      · cases htaken

/-- A scheduler that never comes to send a poisoned buffer goes on. -/
theorem Course.alive (course : n₀.Course scenes n) (fresh : n₀.Fresh) (roomy : n₀.Roomy)
    (clean : ∀ h, (n₀.handle h).memory ≠ .poisoned) (hs : ∀ g ∈ scenes, ¬g.Sinks) :
    n.scheduler.isSome := by
  induction course with
  | nil => exact fresh.scheduler ▸ rfl
  | @snoc scenes n net net' n' a course step ih =>
    have halive := ih fun g hg => hs g (List.mem_append_left _ hg)
    obtain ⟨s, hsched⟩ := Option.isSome_iff_exists.mp halive
    cases undergoes_of_undergo step with
    | calls call calls edits =>
      rw [calls.scheduler]
      exact halive
    | takes takes =>
      have hk := course.kept fresh hsched
      cases takes with
      | faults _ e events f scheduler queue react =>
        obtain rfl : s = _ := Option.some.inj (hsched.symm.trans scheduler)
        obtain ⟨p, hok, -⟩ := hk.react queue
        cases hok.symm.trans react
      | reacts _ e events p scheduler queue react =>
        obtain rfl : s = _ := Option.some.inj (hsched.symm.trans scheduler)
        have hk' := hk.of_react queue react
        refine startAll_alive (n := { n with events, scheduler := some p.1 }) rfl
          (roomy.of_setting course.setting) (course.unspoiled fresh roomy clean) ?_ ?_
        · intro t ht hj
          exact hk'.may_of_started (hk'.starting ht) hj
        · intro t ht b dst tag hjob hp
          exact hs _ (List.mem_append_right _ List.mem_cons_self)
            ⟨e, p.2, Scene.taken_of_react scheduler queue react, t, ht, b, dst, tag, hjob, hp⟩
    | works i w queued =>
      rw [scheduler_work]
      exact halive
    | arrives i c r pending receipt finishes =>
      rw [finishes.scheduler]
      exact halive

/-- A rank serves on, and everything that it has started is accounted for once, exactly as long as
its scheduler has not come to send a poisoned buffer. -/
theorem Course.serves_iff (course : n₀.Course scenes n) (fresh : n₀.Fresh) (roomy : n₀.Roomy)
    (clean : ∀ h, (n₀.handle h).memory ≠ .poisoned) :
    n.Serves scenes ↔ ∀ g ∈ scenes, ¬g.Sinks := by
  constructor
  · intro hserves g hg hs
    have halive := hserves.alive
    rw [course.stopped hg hs] at halive
    cases halive
  · intro hs
    have halive := course.alive fresh roomy clean hs
    obtain ⟨s, hsched⟩ := Option.isSome_iff_exists.mp halive
    have hk := course.kept fresh hsched
    refine ⟨halive, fun t ht hj => (hk.dues t ht hj).resolve_right ?_⟩
    rintro ⟨-, b, src, tag, hjob, hp⟩
    have hm := hk.may_of_started ht hj
    unfold May at hm
    rw [hjob] at hm
    exact course.unspoiled fresh roomy clean b hm.2 hp

end

end Node

namespace World

/-- On every rank of every world, a computation that faults poisons no more than buffers of the rank
that it was writing, and the rank serves on exactly as long as its scheduler has not come to send
one of them. -/
theorem Course.serves_unless_poisoned [Scalar α] {w₀ w : World α} {scenes : Rank → List (Scene α)}
    (course : w₀.Course scenes w) (r : Rank) (fresh : (w₀.node r).Fresh)
    (roomy : (w₀.node r).Roomy) (clean : ∀ h, ((w₀.node r).handle h).memory ≠ .poisoned) :
    (∀ h, ((w.node r).handle h).memory = .poisoned →
      ((w.node r).handle h).owner = (w.node r).rank ∧ ∃ g ∈ scenes r, g.Spoils h) ∧
    ((w.node r).Serves (scenes r) ↔ ∀ g ∈ scenes r, ¬g.Sinks) := by
  have hnode := course.node r
  refine ⟨fun h hp => ⟨?_, hnode.spoiled roomy clean hp⟩, hnode.serves_iff fresh roomy clean⟩
  exact Decidable.byContradiction fun ho => hnode.unspoiled fresh roomy clean h ho hp

/-- A copy that reaches past the end of the buffer that it writes. -/
def straying : Op (ElementType.Value .i64) where
  name := "copy"
  operands := [.data 1 .read, .data 0 .write, .scratch 16]
  codelet := .subBox ⟨[0], [1], [5], [1], [1]⟩

/-- Two ranks, the first of which owns two buffers. -/
def pair : World (ElementType.Value .i64) where
  cluster := .ofSize 2
  nodes := [
    { rank := 0, size := 2, codelets := ["copy"], handles := [.new 1 0 (some ⟨7⟩), .new 2 0 none] },
    { rank := 1, size := 2, codelets := ["copy"], handles := [.new 1 0 (some ⟨7⟩), .new 2 0 none] }]

theorem fresh_pair : (pair.node 0).Fresh := by
  refine Node.fresh_of_handles 0 2 ["copy"] ?_
  intro e he
  rcases List.mem_pair.mp he with rfl | rfl <;> exact ⟨rfl, Coherence.noConfusion⟩

theorem roomy_pair : (pair.node 0).Roomy
  | 0 | 1 => by decide
  | _ + 2 => show allocatable (0 * _) = true by rw [Nat.zero_mul]; decide

theorem clean_pair : ∀ h, ((pair.node 0).handle h).memory ≠ .poisoned
  | 0 | 1 => by decide
  | _ + 2 => show Memory.absent ≠ .poisoned from nofun

/-- The buffer that a faulting copy was writing is poisoned, and the rank serves on. -/
theorem Course.serves_unless_poisoned_of_fault :
    ∃ (scenes : Rank → List (Scene (ElementType.Value .i64)))
      (w : World (ElementType.Value .i64)),
      pair.Course scenes w ∧ ((w.node 0).handle 0).memory = .poisoned ∧
      (∃ g ∈ scenes 0, g.Spoils 0) ∧ (w.node 0).Serves (scenes 0) := by
  obtain ⟨scenes, w, course, hpoisoned, halive⟩ := pair.exists_of_play
    [.inl (0, .submit straying .cpu), .inl (0, .take), .inl (0, .work 0), .inl (0, .take),
      .inl (0, .flush 0), .inl (0, .wait), .inl (0, .take)]
    (fun _ w => ((w.node 0).handle 0).memory = .poisoned ∧ (w.node 0).scheduler.isSome)
    (by decide +kernel)
  obtain ⟨hspoiled, hserves⟩ := course.serves_unless_poisoned 0 fresh_pair roomy_pair clean_pair
  refine ⟨scenes, w, course, hpoisoned, (hspoiled 0 hpoisoned).2, hserves.mpr ?_⟩
  intro g hg hs
  rw [(course.node 0).stopped hg hs] at halive
  cases halive

/-- When the buffer is to be sent the scheduler stops, and the end of the task that sends it is
reported by no one. -/
theorem closed_after_fault :
    ∃ (scenes : Rank → List (Scene (ElementType.Value .i64)))
      (w : World (ElementType.Value .i64)),
      pair.Course scenes w ∧ (pair.node 0).Fresh ∧ (pair.node 0).Roomy ∧
      (∀ h, ((pair.node 0).handle h).memory ≠ .poisoned) ∧ (w.node 0).scheduler = none ∧
      ∃ t ∈ (Scene.record (scenes 0)).started, t.job = .send 0 1 ⟨7⟩ ∧
        (w.node 0).dues (Scene.record (scenes 0)) [] t.id = 0 := by
  obtain ⟨scenes, w, course, hstopped, hstarted⟩ := pair.exists_of_play
    [.inl (0, .submit straying .cpu), .inl (0, .take), .inl (0, .work 0), .inl (0, .take),
      .inl (0, .transfer 0 1), .inl (0, .take)]
    (fun scenes w => (w.node 0).scheduler.isNone ∧
      ∃ t ∈ (Scene.record (scenes 0)).started, t.job = .send 0 1 ⟨7⟩ ∧
        (w.node 0).dues (Scene.record (scenes 0)) [] t.id = 0) (by decide +kernel)
  exact ⟨scenes, w, course, fresh_pair, roomy_pair, clean_pair,
    Option.isNone_iff_eq_none.mp hstopped, hstarted⟩

end World

end TiledTensor
