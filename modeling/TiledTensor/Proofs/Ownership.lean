import TiledTensor.Proofs.Jobs
import TiledTensor.Proofs.Making
import TiledTensor.Proofs.Payload

/-!
# Owners alone write

A rank writes the buffers that it owns, and what it holds of another rank's buffer is received,
freed, or allocated for a reader.  This is decided when a call is made; nothing is asked again when
the task comes to its turn, which may be after the scheduler has stopped.  `Node.Licit` says that
whatever is under way on a rank was allowed, and that its buffers exist, so that it is still allowed
when more buffers are made.
-/

namespace TiledTensor

variable {α : Type}

/-- The buffers that a call names. -/
def Happening.names : Happening α → List HandleId
  | .submit op _ => op.uses.map (·.1)
  | .acquire h _ | .transfer h _ | .flush h => [h]
  | .retire hs _ => hs
  | _ => []

/-! ## Tasks that wait -/

namespace Scheduler

variable {s : Scheduler α} {e : Event α} {p : Scheduler α × Reaction α} {t : Task α}

theorem exists_of_mem_unpark {pending : Table TaskId (Task α)} {ids : List TaskId}
    (h : t ∈ (unpark pending ids).1) : ∃ k, pending.find? k = some t := by
  induction ids generalizing pending with
  | nil => cases h
  | cons id ids ih =>
    unfold unpark at h
    split at h
    · exact ih h
    · rename_i u hu
      rcases List.mem_cons.mp h with rfl | h
      · exact ⟨id, hu⟩
      · obtain ⟨k, hk⟩ := ih h
        rw [Table.find?_erase] at hk
        split at hk
        · cases hk
        · exact ⟨k, hk⟩

/-- A task that has been submitted and has not been started, or was withdrawn before it was. -/
def Awaits (s : Scheduler α) (t : Task α) : Prop :=
  ∃ k u, s.pending.find? k = some u ∧ (t = u ∨ t = { u with job := .withdrawn })

/-- What a scheduler is left with after an event. -/
def Deals (p : Scheduler α × Reaction α) (t : Task α) : Prop :=
  t ∈ p.2.started ∨ ∃ k, p.1.pending.find? k = some t

theorem awaits_of_complete {id : TaskId} (h : s.complete id = .ok p) (ht : Deals p t) : s.Awaits t := by
  unfold complete at h
  split at h
  · rename_i u hu
    cases h
    rcases ht with ht | ⟨k, hk⟩
    · cases ht
    · rw [Table.find?_put] at hk
      split at hk
      · exact ⟨id, u, hu, Or.inr (Option.some.inj hk).symm⟩
      · exact ⟨k, t, hk, Or.inl rfl⟩
  · obtain ⟨q, -, h⟩ := bind_eq_ok h
    cases h
    unfold Deals at ht
    rw [settle_started, settle_pending] at ht
    rcases ht with ht | ⟨k, hk⟩
    · obtain ⟨k, hk⟩ := exists_of_mem_unpark ht
      exact ⟨k, t, hk, Or.inl rfl⟩
    · rw [find?_unpark_snd] at hk
      split at hk
      · cases hk
      · exact ⟨k, t, hk, Or.inl rfl⟩

/-- A scheduler deals with tasks that it has been given. -/
theorem submitted_or_awaits (h : s.react e = .ok p) (ht : Deals p t) : e = .submit t ∨ s.Awaits t := by
  cases e with
  | submit u =>
    cases h
    unfold Deals submit at ht
    dsimp only at ht
    split at ht
    · rcases ht with ht | ⟨k, hk⟩
      · exact Or.inl (congrArg _ (List.mem_singleton.mp ht).symm)
      · exact Or.inr ⟨k, t, hk, Or.inl rfl⟩
    · rcases ht with ht | ⟨k, hk⟩
      · cases ht
      · rw [Table.find?_put] at hk
        split at hk
        · exact Or.inl (congrArg _ (Option.some.inj hk))
        · exact Or.inr ⟨k, t, hk, Or.inl rfl⟩
  | complete id => exact Or.inr (awaits_of_complete h ht)
  | fail id f => exact Or.inr (awaits_of_complete (s := s.note f) h ht)
  | wait b =>
    cases h
    unfold Deals at ht
    rw [settle_started, settle_pending] at ht
    rcases ht with ht | ⟨k, hk⟩
    · cases ht
    · exact Or.inr ⟨k, t, hk, Or.inl rfl⟩

end Scheduler

namespace Node

variable {n n' m : Node α} {net net' : Cluster} {h : HandleId} {t : Task α} {tasks : List (Task α)}
  {a : Happening α}

/-! ## What is under way -/

/-- A task under way does to its buffers what the rank may do, and they exist. -/
def Sanctions (n : Node α) (t : Task α) : Prop :=
  (t.job = .withdrawn ∨ n.May t) ∧ ∀ u ∈ t.uses, u.1 < n.handles.length

/-- Whatever is under way on a rank does to buffers what the rank may do. -/
structure Licit (n : Node α) : Prop where
  queued : ∀ t, .submit t ∈ n.events → n.Sanctions t
  pending : ∀ s, n.scheduler = some s → ∀ k t, s.pending.find? k = some t → n.Sanctions t
  work : ∀ w ∈ n.work, ∀ u ∈ w.op.uses,
    u.1 < n.handles.length ∧ (u.2.writes = true → (n.handle u.1).owner = n.rank)
  arrivals : ∀ c ∈ n.arrivals, c.handle < n.handles.length ∧ (n.handle c.handle).owner ≠ n.rank
  accessors : ∀ k c, n.accessors.find? k = some c → c.handle < n.handles.length ∧ n.Admits c

/-- Nothing is under way on `n'` that is not under way on `n`. -/
structure Within (n n' : Node α) : Prop where
  setting : n'.setting = n.setting
  queued : ∀ t, .submit t ∈ n'.events → .submit t ∈ n.events
  pending : ∀ s', n'.scheduler = some s' → ∃ s, n.scheduler = some s ∧ s'.pending = s.pending
  work : n'.work ⊆ n.work
  arrivals : n'.arrivals ⊆ n.arrivals
  accessors : ∀ k c', n'.accessors.find? k = some c' →
    ∃ c, n.accessors.find? k = some c ∧ c'.handle = c.handle ∧ c'.access = c.access

theorem Sanctions.of_setting (hs : n.Sanctions t) (hset : n'.setting = n.setting) : n'.Sanctions t :=
  ⟨hs.1.imp_right fun hm => hm.of_setting hset, fun u hu => length_of_setting hset ▸ hs.2 u hu⟩

theorem Sanctions.withdraw (hs : n.Sanctions t) : n.Sanctions { t with job := .withdrawn } :=
  ⟨Or.inl rfl, hs.2⟩

/-- A task may still be done when more buffers have been made. -/
theorem Sanctions.append (hs : n.Sanctions t) (own : List (Handle α)) :
    Sanctions { n with handles := n.handles ++ own } t := by
  have hlen : n.handles.length ≤ (n.handles ++ own).length := by
    rw [List.length_append]
    exact Nat.le_add_right _ _
  have hsame : ∀ u ∈ t.uses, (handle { n with handles := n.handles ++ own } u.1) = n.handle u.1 :=
    fun u hu => handle_append_left own (hs.2 u hu)
  refine ⟨hs.1.imp_right fun hm => ?_, fun u hu => Nat.lt_of_lt_of_le (hs.2 u hu) hlen⟩
  unfold May at hm ⊢
  cases hj : t.job with
  | compute op =>
    rw [hj] at hm
    refine ⟨hm.1, fun u hu hw => ?_⟩
    rw [hsame u (hm.1 ▸ hu)]
    exact hm.2 u hu hw
  | send h dst tag =>
    rw [hj] at hm
    refine ⟨hm.1, ?_⟩
    rw [hsame (h, .read) (hm.1 ▸ List.mem_cons_self)]
    exact hm.2
  | receive h src tag =>
    rw [hj] at hm
    refine ⟨hm.1, ?_⟩
    rw [hsame (h, .write) (hm.1 ▸ List.mem_cons_self)]
    exact hm.2
  | evict h =>
    rw [hj] at hm
    refine ⟨hm.1, ?_⟩
    rw [hsame (h, .write) (hm.1 ▸ List.mem_cons_self)]
    exact hm.2
  | grant => trivial
  | retire tags => trivial
  | withdrawn =>
    rw [hj] at hm
    exact hm

namespace Within

theorem refl (n : Node α) : n.Within n :=
  ⟨rfl, fun _ h => h, fun s hs => ⟨s, hs, rfl⟩, fun _ h => h, fun _ h => h,
    fun _ c hc => ⟨c, hc, rfl, rfl⟩⟩

theorem trans (h₁ : n.Within m) (h₂ : m.Within n') : n.Within n' := by
  refine ⟨h₂.setting.trans h₁.setting, fun t ht => h₁.queued t (h₂.queued t ht), fun s hs => ?_,
    fun _ hw => h₁.work (h₂.work hw), fun _ hc => h₁.arrivals (h₂.arrivals hc), fun k c hc => ?_⟩
  · obtain ⟨s', hs', heq⟩ := h₂.pending s hs
    obtain ⟨s'', hs'', heq'⟩ := h₁.pending s' hs'
    exact ⟨s'', hs'', heq.trans heq'⟩
  · obtain ⟨c', hc', hh, ha⟩ := h₂.accessors k c hc
    obtain ⟨c'', hc'', hh', ha'⟩ := h₁.accessors k c' hc'
    exact ⟨c'', hc'', hh.trans hh', ha.trans ha'⟩

theorem of_onlyBuffers (hm : n.OnlyBuffers n') (hset : n'.setting = n.setting) : n.Within n' := by
  refine ⟨hset, ?_, ?_, ?_, ?_, ?_⟩
  · rw [hm.events]
    exact fun _ h => h
  · rw [hm.scheduler]
    exact fun s hs => ⟨s, hs, rfl⟩
  · rw [hm.work]
    exact fun _ h => h
  · rw [hm.arrivals]
    exact fun _ h => h
  · rw [hm.accessors]
    exact fun _ c hc => ⟨c, hc, rfl, rfl⟩

theorem of_onlyMemory (hm : n.OnlyMemory n') : n.Within n' := of_onlyBuffers hm.toOnlyBuffers hm.setting

theorem post {e : Event α} (he : ∀ t, e ≠ .submit t) (hn : n.Within m) : n.Within (m.post e) := by
  refine hn.trans ⟨setting_post m e, fun t ht => ?_, ?_, ?_, ?_, ?_⟩
  · unfold Node.post at ht
    split at ht
    · exact (List.mem_append.mp ht).resolve_right fun hin => he t (List.mem_singleton.mp hin).symm
    · exact ht
  · rw [post_scheduler]
    exact fun s hs => ⟨s, hs, rfl⟩
  · rw [post_work]
    exact fun _ h => h
  · rw [post_arrivals]
    exact fun _ h => h
  · rw [post_accessors]
    exact fun _ c hc => ⟨c, hc, rfl, rfl⟩

/-- Accessors that are closed stay accessors of the same buffers. -/
theorem close (n : Node α) (ids : List TaskId) : n.Within (n.close ids) := by
  refine ⟨rfl, fun _ h => h, fun s hs => ⟨s, hs, rfl⟩, fun _ h => h, fun _ h => h, fun k c hc => ?_⟩
  unfold Node.close at hc
  dsimp only at hc
  rw [Table.find?_foldl_adjust_of_idem] at hc
  · split at hc
    · obtain ⟨c', hc', rfl⟩ := Option.map_eq_some_iff.mp hc
      refine ⟨c', hc', ?_⟩
      split <;> exact ⟨rfl, rfl⟩
    · exact ⟨c, hc, rfl, rfl⟩
  · intro c
    split
    · rw [if_neg Accessor.Phase.noConfusion]
    · rfl

theorem stop (n : Node α) : n.Within n.stop := by
  unfold Node.stop
  split
  · exact refl n
  · rename_i s hs
    refine Within.trans ?_ (close _ _)
    refine ⟨rfl, fun _ h => h, fun s hs => ?_, fun _ h => h, fun _ h => h,
      fun _ c hc => ⟨c, hc, rfl, rfl⟩⟩
    cases hs

end Within

namespace Licit

theorem within (hl : n.Licit) (hw : n.Within n') : n'.Licit := by
  have hlen := length_of_setting hw.setting
  have howner := owner_of_setting hw.setting
  have hrank := rank_of_setting hw.setting
  refine ⟨fun t ht => ?_, fun s hs k t ht => ?_, fun w hin u hu => ?_, fun c hc => ?_, fun k c hc => ?_⟩
  · exact (hl.queued t (hw.queued t ht)).of_setting hw.setting
  · obtain ⟨s', hs', heq⟩ := hw.pending s hs
    exact (hl.pending s' hs' k t (heq ▸ ht)).of_setting hw.setting
  · rw [hlen, howner, hrank]
    exact hl.work w (hw.work hin) u hu
  · rw [hlen, howner, hrank]
    exact hl.arrivals c (hw.arrivals hc)
  · obtain ⟨c', hc', hh, ha⟩ := hw.accessors k c hc
    obtain ⟨hlt, hadm⟩ := hl.accessors k c' hc'
    unfold Admits at hadm ⊢
    rw [hh, ha, hlen, howner, hrank]
    exact ⟨hlt, hadm⟩

/-- What is under way may still be done when more buffers have been made. -/
theorem append (hl : n.Licit) (own : List (Handle α)) :
    Licit { n with handles := n.handles ++ own } := by
  have hlen : n.handles.length ≤ (n.handles ++ own).length := by
    rw [List.length_append]
    exact Nat.le_add_right _ _
  have hsame : ∀ {j}, j < n.handles.length →
      handle { n with handles := n.handles ++ own } j = n.handle j := handle_append_left own
  refine ⟨fun t ht => (hl.queued t ht).append own, fun s hs k t ht => (hl.pending s hs k t ht).append own,
    fun w hw u hu => ?_, fun c hc => ?_, fun k c hc => ?_⟩
  · obtain ⟨hlt, howner⟩ := hl.work w hw u hu
    rw [hsame hlt]
    exact ⟨Nat.lt_of_lt_of_le hlt hlen, howner⟩
  · obtain ⟨hlt, howner⟩ := hl.arrivals c hc
    rw [hsame hlt]
    exact ⟨Nat.lt_of_lt_of_le hlt hlen, howner⟩
  · obtain ⟨hlt, hadm⟩ := hl.accessors k c hc
    refine ⟨Nat.lt_of_lt_of_le hlt hlen, fun hw => ?_⟩
    rw [hsame hlt]
    exact hadm hw

/-- A call queues a task that may be done. -/
theorem enqueue {name : String} {uses : List (HandleId × Access)} {job : Job α} (hl : n.Licit)
    (hm : n.OnlyBuffers m) (hset : m.setting = n.setting)
    (hs : n.Sanctions ⟨n.nextTask, name, uses, job⟩) : (m.enqueue name uses job).1.Licit := by
  have hid : m.nextTask = n.nextTask := by rw [hm.eq]
  have hl' := hl.within (.of_onlyBuffers hm hset)
  have hs' : m.Sanctions ⟨m.nextTask, name, uses, job⟩ := hid ▸ hs.of_setting hset
  unfold Node.enqueue Node.post
  dsimp only
  split
  · refine ⟨fun t ht => ?_, hl'.pending, hl'.work, hl'.arrivals, hl'.accessors⟩
    rcases List.mem_append.mp ht with ht | ht
    · exact hl'.queued t ht
    · cases List.mem_singleton.mp ht
      exact hs'
  · exact ⟨hl'.queued, hl'.pending, hl'.work, hl'.arrivals, hl'.accessors⟩

/-- What the scheduler deals with may be done. -/
theorem sanctions_of_react {s : Scheduler α} {e : Event α} {events : List (Event α)}
    {p : Scheduler α × Reaction α} (hl : n.Licit) (hs : n.scheduler = some s)
    (he : n.events = e :: events) (hr : s.react e = .ok p) (ht : Scheduler.Deals p t) :
    n.Sanctions t := by
  rcases Scheduler.submitted_or_awaits hr ht with rfl | ⟨k, u, hu, rfl | rfl⟩
  · exact hl.queued t (he ▸ List.mem_cons_self)
  · exact hl.pending s hs k t hu
  · exact (hl.pending s hs k u hu).withdraw

/-! ### Calls -/

theorem submitOn (hl : n.Licit) {op : Op α} {device : Device}
    (hknown : ∀ u ∈ op.uses, u.1 < n.handles.length) : (n.submitOn op device).1.Licit := by
  unfold Node.submitOn
  split
  · exact hl
  · rename_i h₀
    exact hl.enqueue (onlyBuffers_markWritten n op.uses) (setting_markWritten n op.uses)
      ⟨Or.inr ⟨rfl, owner_of_rejection h₀⟩, hknown⟩

theorem acquire (hl : n.Licit) {b : Access} (hh : h < n.handles.length) : (n.acquire h b).1.Licit := by
  unfold Node.acquire
  split
  · exact hl
  · split
    · exact hl
    · rename_i h₀
      have hset := setting_markWritten n [(h, b)]
      have hqueued : ((n.markWritten [(h, b)]).enqueue "acquire" [(h, b)] .grant).1.Licit := by
        refine hl.enqueue (onlyBuffers_markWritten n [(h, b)]) hset ⟨Or.inr trivial, ?_⟩
        exact List.forall_mem_singleton.mpr hh
      split
      · rename_i m id hok
        have hm : m.setting = n.setting := by
          obtain ⟨-, -, rfl⟩ := enqueue_eq_ok hok
          exact hset
        rw [hok] at hqueued
        refine ⟨hqueued.queued, hqueued.pending, hqueued.work, hqueued.arrivals, fun k c hc => ?_⟩
        dsimp only at hc
        rw [Table.find?_put] at hc
        split at hc
        · cases hc
          refine ⟨length_of_setting hm ▸ hh, ?_⟩
          have hadm : n.Admits ⟨h, b, .waiting⟩ := owner_of_obstacle h₀
          exact hadm.of_setting hm
        · exact hqueued.accessors k c hc
      · rename_i m e hok
        rw [hok] at hqueued
        exact hqueued

theorem transfer (hl : n.Licit) {r : Rank} (hh : h < n.handles.length) : (n.transfer h r).1.Licit := by
  have ht := transfers n h r
  generalize (n.transfer h r).1 = n' at ht
  cases ht with
  | skips nothing => exact hl
  | asks tag name asks =>
    refine hl.enqueue (onlyBuffers_setHandle fun hp => hp) (setting_setHandle rfl) ⟨Or.inr ?_, ?_⟩
    · exact ⟨rfl, asks.foreign⟩
    · exact List.forall_mem_singleton.mpr hh
  | sends tag name sends =>
    refine hl.enqueue (onlyBuffers_setHandle fun hp => hp) (setting_setHandle rfl) ⟨Or.inr ?_, ?_⟩
    · exact ⟨rfl, sends.owned⟩
    · exact List.forall_mem_singleton.mpr hh

section

variable [Scalar α]

theorem flush (hl : n.Licit) (hh : h < n.handles.length) : (n.flush h).1.Licit := by
  have hf := edits_flush n h
  generalize (n.flush h).1 = n' at hf
  cases hf with
  | idle flush transfer handles => exact absurd rfl (flush h)
  | writes uses own flush transfer handles => exact absurd rfl (flush h)
  | forgets _ nothing =>
    refine hl.within (.of_onlyBuffers (onlyBuffers_setHandle fun hp => ?_) (setting_setHandle ?_)) <;>
      unfold Handle.flush <;> split
    · exact hp
    · exact hp
    · rfl
    · rfl
  | drops _ foreign held =>
    refine hl.enqueue (onlyBuffers_setHandle fun hp => hp) (setting_setHandle rfl) ⟨Or.inr ?_, ?_⟩
    · exact ⟨rfl, foreign⟩
    · exact List.forall_mem_singleton.mpr hh

/-- What calls leave under way may be done, if they name buffers that exist. -/
theorem call (hl : n.Licit) (ha : a.isCall = true) (known : ∀ h ∈ a.names, h < n.handles.length)
    (step : n.undergo net a = some (net', n')) : n'.Licit := by
  cases a with
  | submit op device =>
    cases step
    exact hl.submitOn fun u hu => known u.1 (List.mem_map_of_mem hu)
  | acquire h b =>
    cases step
    exact hl.acquire (known h List.mem_cons_self)
  | release k =>
    unfold undergo at step
    dsimp only at step
    split at step
    · cases step
      refine hl.within (Within.post (fun _ h => by cases h) ⟨rfl, fun _ h => h,
        fun s hs => ⟨s, hs, rfl⟩, fun _ h => h, fun _ h => h, fun j c hc => ?_⟩)
      dsimp only at hc
      rw [Table.find?_erase] at hc
      split at hc
      · cases hc
      · exact ⟨c, hc, rfl, rfl⟩
    · cases step
  | look k =>
    obtain ⟨c, -, heq⟩ := Option.map_eq_some_iff.mp step
    cases heq
    exact hl.within (.of_onlyMemory (onlyMemory_openHandle n c.handle))
  | put k block =>
    obtain ⟨m, hm, heq⟩ := Option.map_eq_some_iff.mp step
    cases heq
    obtain ⟨c, -, hw⟩ := Option.bind_eq_some_iff.mp hm
    exact hl.within (.of_onlyMemory (onlyMemory_enterWrite hw))
  | wait =>
    cases step
    unfold Node.wait
    split
    · exact hl.within (.post (fun _ h => by cases h) ⟨rfl, fun _ h => h,
        fun s hs => ⟨s, hs, rfl⟩, fun _ h => h, fun _ h => h, fun _ c hc => ⟨c, hc, rfl, rfl⟩⟩)
    · exact hl
  | leave b =>
    cases step
    exact ⟨hl.queued, hl.pending, hl.work, hl.arrivals, hl.accessors⟩
  | transfer h r =>
    cases step
    exact hl.transfer (known h List.mem_cons_self)
  | flush h =>
    cases step
    exact hl.flush (known h List.mem_cons_self)
  | retire hs tags =>
    cases step
    refine hl.enqueue (.refl n) rfl ⟨Or.inr trivial, fun u hu => ?_⟩
    obtain ⟨h, hh, rfl⟩ := List.mem_map.mp hu
    exact known h hh
  | take => cases ha
  | work i => cases ha
  | arrive i => cases ha

/-! ### What the rank does by itself -/

theorem start (hl : n.Licit) (ht : n.Sanctions t) (hs : n.Starts net t net' n') : n'.Licit := by
  have hend : ∀ {m : Node α}, n.Within m → (m.post (.complete t.id)).Licit :=
    fun hm => hl.within (hm.post nofun)
  cases hs with
  | computes op job =>
    have hm := ht.1.resolve_left (by rw [job]; exact nofun)
    unfold May at hm
    rw [job] at hm
    refine ⟨hl.queued, hl.pending, fun w hw u hu => ?_, hl.arrivals, hl.accessors⟩
    rcases List.mem_append.mp hw with hw | hw
    · exact hl.work w hw u hu
    · obtain rfl := List.mem_singleton.mp hw
      exact ⟨ht.2 u (hm.1 ▸ hu), hm.2 u hu⟩
  | receives h src tag job =>
    have hm := ht.1.resolve_left (by rw [job]; exact nofun)
    unfold May at hm
    rw [job] at hm
    refine ⟨hl.queued, hl.pending, hl.work, fun c hc => ?_, hl.accessors⟩
    rcases List.mem_append.mp hc with hc | hc
    · exact hl.arrivals c hc
    · obtain rfl := List.mem_singleton.mp hc
      exact ⟨ht.2 (h, .write) (hm.1 ▸ List.mem_cons_self), hm.2⟩
  | sends h dst tag block _ job opened sent => exact hend (.of_onlyMemory (onlyMemory_openHandle n h))
  | refused h dst tag block e job opened unsent =>
    refine hend (Within.trans (.of_onlyMemory (onlyMemory_openHandle n h)) ?_)
    refine ⟨rfl, fun _ h => h, fun s hs => ?_, fun _ h => h, fun _ h => h,
      fun _ c hc => ⟨c, hc, rfl, rfl⟩⟩
    obtain ⟨s', hs', rfl⟩ := Option.map_eq_some_iff.mp hs
    exact ⟨s', hs', rfl⟩
  | unopened h dst tag f job unopened =>
    exact hl.within ((Within.of_onlyMemory (onlyMemory_openHandle n h)).trans (.stop _))
  | evicts h e job freed => exact hend (.of_onlyMemory (onlyMemory_evict freed))
  | unfreed h f job unfreed => exact hl.within (.stop n)
  | grants job held =>
    refine hl.within ⟨rfl, fun _ h => h, fun s hs => ⟨s, hs, rfl⟩, fun _ h => h, fun _ h => h,
      fun k c hc => ?_⟩
    dsimp only at hc
    rw [Table.find?_adjust] at hc
    split at hc
    · obtain ⟨c', hc', rfl⟩ := Option.map_eq_some_iff.mp hc
      exact ⟨c', hc', rfl, rfl⟩
    · exact ⟨c, hc, rfl, rfl⟩
  | vacant job gone => exact hend (.refl n)
  | retires tags job => exact hend (.refl n)
  | withdrawn job => exact hend (.refl n)

theorem startAll (hl : n.Licit) (ht : ∀ t ∈ tasks, n.Sanctions t) : (startAll net n tasks).2.Licit :=
  startAll_of_starts hl (fun hin hset hs hm => hm.start ((ht _ hin).of_setting hset) hs)
    fun _ hm => hm.within (.close _ _)

theorem take (hl : n.Licit) (ht : n.Takes net net' n') : n'.Licit := by
  cases ht with
  | faults s e events f scheduler queue react =>
    refine hl.within (Within.trans (m := { n with events }) ?_ (.stop _))
    exact ⟨rfl, fun t ht => queue ▸ List.mem_cons_of_mem e ht, fun s hs => ⟨s, hs, rfl⟩, fun _ h => h,
      fun _ h => h, fun _ c hc => ⟨c, hc, rfl, rfl⟩⟩
  | reacts s e events p scheduler queue react =>
    have hdeals : ∀ t, Scheduler.Deals p t → n.Sanctions t :=
      fun t => hl.sanctions_of_react scheduler queue react
    have hreacted : Licit { n with events, scheduler := some p.1 } := by
      refine ⟨fun t ht => hl.queued t (queue ▸ List.mem_cons_of_mem e ht), ?_, hl.work, hl.arrivals,
        hl.accessors⟩
      rintro _ ⟨⟩ k t ht
      exact hdeals t (Or.inr ⟨k, ht⟩)
    have hall : Licit (Node.startAll net { n with events, scheduler := some p.1 } p.2.started).2 :=
      hreacted.startAll fun t ht => hdeals t (Or.inl ht)
    exact ⟨hall.queued, hall.pending, hall.work, hall.arrivals, hall.accessors⟩

theorem finish {c : Arrival} {r : Receipt} (hl : n.Licit) (hf : n.Finishes c r n') : n'.Licit := by
  cases hf with
  | accepts payload block opened fits =>
    refine hl.within (.post nofun (.of_onlyMemory ?_))
    exact (onlyMemory_openHandle n c.handle).trans (onlyMemory_store _ c.handle _)
  | abandons _ m e fails =>
    refine hl.within ((Within.of_onlyMemory fails.onlyMemory).trans ?_)
    have hflush : ((m.handle c.handle).flush m.rank).1.memory = (m.handle c.handle).memory ∧
        ((m.handle c.handle).flush m.rank).1.label = (m.handle c.handle).label := by
      unfold Handle.flush
      split <;> exact ⟨rfl, rfl⟩
    unfold abandon
    dsimp only
    split
    · rename_i copy hcopy
      unfold Handle.evict at hcopy
      split at hcopy
      · cases hcopy
      · rename_i hp
        cases hcopy
        rw [hflush.1] at hp
        exact .post nofun (.of_onlyBuffers (onlyBuffers_setHandle fun h => absurd h hp)
          (setting_setHandle hflush.2))
    · exact .of_onlyBuffers (onlyBuffers_setHandle fun hp => hflush.1.trans hp)
        (setting_setHandle hflush.2)
  | unopened payload f unopened => exact hl.within (.of_onlyMemory (onlyMemory_openHandle n c.handle))

theorem undergo (hl : n.Licit) (known : ∀ h ∈ a.names, h < n.handles.length)
    (step : n.undergo net a = some (net', n')) : n'.Licit := by
  cases undergoes_of_undergo step with
  | calls call calls edits => exact hl.call call known step
  | takes takes => exact hl.take takes
  | works i w queued =>
    refine hl.within (.post nofun (Within.trans (m := { n with work := n.work.eraseIdx i }) ?_
      (.of_onlyMemory (onlyMemory_run _ w.op))))
    exact ⟨rfl, fun _ h => h, fun s hs => ⟨s, hs, rfl⟩, fun _ => List.mem_of_mem_eraseIdx, fun _ h => h,
      fun _ c hc => ⟨c, hc, rfl, rfl⟩⟩
  | arrives i c r pending receipt finishes =>
    refine Licit.finish (n := { n with arrivals := n.arrivals.eraseIdx i }) ?_ finishes
    exact ⟨hl.queued, hl.pending, hl.work,
      fun c hc => hl.arrivals c (List.mem_of_mem_eraseIdx hc), hl.accessors⟩

end

end Licit

end Node

end TiledTensor
