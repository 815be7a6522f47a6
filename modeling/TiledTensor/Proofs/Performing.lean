import TiledTensor.Proofs.Ledger
import TiledTensor.Proofs.Payload

/-!
# Performing duties

What happens to the ledger of a rank when the scheduler starts the task of a duty, and when a
receive ends.  Only the two halves of a transfer touch the cluster: the owner sends what it shows at
that moment, and the target later stores what has come.
-/

namespace TiledTensor

namespace Node

theorem stop_arrivals {α : Type} (n : Node α) (ids : List TaskId) :
    (n.stop.close ids).arrivals = n.arrivals := by
  show n.stop.arrivals = n.arrivals
  unfold Node.stop
  split <;> rfl

variable {α : Type} [Scalar α] {n n' m n₀ : Node α} {hist : List (Entry α)}
  {V V' : Nat → Option (List α)} {log : List (Task α)} {done done' : TaskId → Prop}
  {todo : List (Task α)} {t : Task α} {e : Entry α} {k : TaskId} {h : HandleId} {r : Rank}
  {s : Scheduler α} {net net' : Cluster} {i : Nat}

/-- Opening a buffer that cannot be opened, or freeing it, stops the scheduler. -/
theorem Ledger.stop (hl : n.Ledger n₀ hist V log done todo) (ids : List TaskId) :
    (n.stop.close ids).Ledger n₀ hist V log done [] :=
  hl.same (hl.account.stop ids) (hl.marks.stop ids)

/-- What has come of starting task `k`, if it concerns no other rank. -/
structure Started (n₀ n m : Node α) (hist : List (Entry α)) (V : Nat → Option (List α))
    (log : List (Task α)) (done : TaskId → Prop) (todo : List (Task α)) (k : TaskId) : Prop where
  alive : m.scheduler.isSome → ∃ done', m.Ledger n₀ hist V log done' todo ∧
    n₀.Quiet n m hist hist V done done' ∧ Gains (· = k) done done'
  dead : ¬m.scheduler.isSome → ∀ ids, (m.close ids).Ledger n₀ hist V log done [] ∧
    n₀.Quiet n (m.close ids) hist hist V done done

namespace Ledger

/-- The next task to start has a duty, and it is as it was queued unless it is withdrawn. -/
theorem next_duty (hl : n.Ledger n₀ hist V log done (t :: todo)) (hs : n.scheduler = some s) :
    ∃ d u, (n₀.duties hist)[t.id]? = some d ∧ log[t.id]? = some u ∧ n₀.Describes d u ∧
      (t = u ∨ (u.job = .grant ∧ t = { u with job := .withdrawn })) := by
  obtain ⟨⟨u, hu, hplan⟩, -⟩ := hl.account.orderly.next hs
  obtain ⟨d, hd, hdesc⟩ := hl.exists_duty hu
  refine ⟨d, u, hd, hu, hdesc, ?_⟩
  rcases hplan with rfl | ⟨hj, -, ht⟩
  · exact Or.inl rfl
  · exact Or.inr ⟨hj, ht⟩

/-- A task is done as soon as it is started, and only buffers have changed. -/
theorem finish (hl : n.Ledger n₀ hist V log done (t :: todo)) (hs : n.scheduler = some s)
    (hm : n.OnlyMemory m) {d : Nat × Entry α} (hd : (n₀.duties hist)[t.id]? = some d)
    (hshows : m.shows = (n₀.deed V d).effect n.shows) :
    (m.post (.complete t.id)).Ledger n₀ hist V log (fun j => done j ∨ j = t.id) todo :=
  hl.same (hl.account.finishFirst hs hm.toOnlyBuffers (getElem?_deeds hd) hshows)
    ((hl.marks.onlyMemory hm).post _)

/-- A task other than a half of a transfer is done. -/
theorem quiet_finish {d : Nat × Entry α} (hd : (n₀.duties hist)[k]? = some d) (hne : ∀ h r, d.2 ≠ .transfer h r)
    (ha : n'.arrivals = n.arrivals) :
    n₀.Quiet n n' hist hist V done (fun j => done j ∨ j = k) := by
  refine .of_same ha ?_
  intro j i h r hj
  refine or_iff_left ?_
  rintro rfl
  obtain rfl := Option.some.inj (hd.symm.trans hj)
  exact hne h r rfl

/-- A task for a call of the rank itself is started. -/
theorem start_own (net : Cluster) (hl : n.Ledger n₀ hist V log done (t :: todo)) (hs : n.scheduler = some s)
    (hd : (n₀.duties hist)[t.id]? = some (i, e)) (he : e.Own) :
    (start net n t).1 = net ∧ (start net n t).2.scheduler.isSome ∧
      ∃ done', (start net n t).2.Ledger n₀ hist V log done' todo ∧
        n₀.Quiet n (start net n t).2 hist hist V done done' ∧
        Gains (· = t.id) done done' := by
  obtain ⟨d, u, hd', hu, hdesc, hplan⟩ := hl.next_duty hs
  obtain rfl := Option.some.inj (hd.symm.trans hd')
  have halive : n.scheduler.isSome := by rw [hs]; rfl
  have hown : ∀ h r, (i, e).2 ≠ .transfer h r := by
    rintro h r rfl
    exact he
  -- nothing is done for an accessor that has been given up
  have hidle : ∀ id h a puts, e = .guard id h a puts →
      (n.post (.complete t.id)).Ledger n₀ hist V log (fun j => done j ∨ j = t.id) todo := by
    rintro id h a puts rfl
    refine hl.finish hs (OnlyMemory.refl n) hd (Eq.symm ?_)
    exact hl.account.idle t.id u _ hu hdesc.2.1 (getElem?_deeds hd)
      (hl.account.not_applied_next hs) n.shows
  have hquiet : n₀.Quiet n (n.post (.complete t.id)) hist hist V done
      (fun j => done j ∨ j = t.id) := quiet_finish hd hown (post_arrivals n _)
  cases e with
  | transfer h r => exact absurd he not_false
  | flush h => exact absurd he not_false
  | task id op =>
    obtain ⟨-, hjob⟩ := hdesc
    rcases hplan with rfl | ⟨hj, -⟩
    · unfold start
      rw [hjob]
      exact ⟨rfl, halive, done, hl.same (hl.account.startCompute hs hjob)
        (hl.marks.of_handles rfl rfl rfl), .of_same rfl fun _ _ _ _ _ => Iff.rfl, .refl _ _⟩
    · rw [hjob] at hj
      cases hj
  | guard id h a puts =>
    obtain ⟨-, hjob, -⟩ := hdesc
    have hpost : (n.post (.complete t.id)).scheduler.isSome := by
      rw [post_scheduler]
      exact halive
    rcases hplan with rfl | ⟨-, ht⟩
    · unfold start
      rw [hjob]
      dsimp only
      split
      · rename_i hhas
        exact ⟨rfl, halive, done,
          hl.same (hl.account.startGrant hs hjob hhas (getElem?_deeds hd))
            (hl.marks.of_handles rfl rfl rfl), .of_same rfl fun _ _ _ _ _ => Iff.rfl,
          .refl _ _⟩
      · exact ⟨rfl, hpost, _, hidle id h a puts rfl, hquiet, .one _ _⟩
    · have hjob' : t.job = .withdrawn := by rw [ht]
      unfold start
      rw [hjob']
      exact ⟨rfl, hpost, _, hidle id h a puts rfl, hquiet, .one _ _⟩

/-- The buffers of a duty exist. -/
theorem bound_of_use (hl : n.Ledger n₀ hist V log done todo) {d : Nat × Entry α} {a : Access}
    (hd : (n₀.duties hist)[k]? = some d) (hu : (h, a) ∈ (n₀.deed V d).uses) :
    h < n.handles.length := by
  obtain ⟨u, hu', huses⟩ := getElem?_of_uses hl.account.faithful.uses (getElem?_deeds hd)
  exact hl.account.faithful.bounds u (List.mem_of_getElem? hu') (h, a) (huses ▸ hu)

/-- A freed buffer shows what it showed when it was new. -/
theorem shows_evict (hl : n.Ledger n₀ hist V log done todo) {b : Handle α}
    (hb : (n.handle h).evict = .ok b) : b.shows = (n₀.handle h).blank := by
  unfold Handle.evict at hb
  split at hb
  · cases hb
  · obtain rfl := Except.ok.inj hb
    show Handle.blank _ = _
    unfold Handle.blank
    rw [← hl.marks.count h]

/-- The task for a flush is started. -/
theorem start_flush (net : Cluster) (hl : n.Ledger n₀ hist V log done (t :: todo)) (hs : n.scheduler = some s)
    (hd : (n₀.duties hist)[t.id]? = some (i, .flush h)) :
    (start net n t).1 = net ∧ n₀.Started n (start net n t).2 hist V log done todo t.id := by
  obtain ⟨d, u, hd', hu, hdesc, hplan⟩ := hl.next_duty hs
  obtain rfl := Option.some.inj (hd.symm.trans hd')
  have hjob : u.job = .evict h := hdesc
  obtain rfl : t = u := by
    rcases hplan with ht | ⟨hj, -⟩
    · exact ht
    · rw [hjob] at hj
      cases hj
  have hbound := hl.bound_of_use (a := .write) hd List.mem_cons_self
  unfold start
  rw [hjob]
  dsimp only
  split
  · rename_i b hb
    refine ⟨rfl, fun _ => ?_, fun hdead => ?_⟩
    · have hm := onlyMemory_evict hb
      refine ⟨_, hl.finish hs hm hd ?_, quiet_finish hd (by simp) (post_arrivals _ _),
        .one _ _⟩
      rw [shows_setHandle hbound, hl.shows_evict hb]
      rfl
    · refine absurd ?_ hdead
      rw [post_scheduler]
      show n.scheduler.isSome
      rw [hs]
      rfl
  · refine ⟨rfl, fun halive => ?_, fun _ ids => ⟨hl.stop ids, .of_same (stop_arrivals n ids) ?_⟩⟩
    · rw [stop_scheduler] at halive
      cases halive
    · intro _ _ _ _ _
      exact Iff.rfl

/-! ## Transfers -/

/-- The task of a transfer is started as it was queued. -/
theorem next_transfer (hl : n.Ledger n₀ hist V log done (t :: todo)) (hs : n.scheduler = some s)
    (hd : (n₀.duties hist)[t.id]? = some (i, .transfer h r)) :
    ∃ tag, (n₀.handle h).tag = some tag ∧ t.job = (n₀.errand h r tag).2 ∧ log[t.id]? = some t := by
  obtain ⟨d, u, hd', hu, hdesc, hplan⟩ := hl.next_duty hs
  obtain rfl := Option.some.inj (hd.symm.trans hd')
  obtain ⟨tag, htag, hjob⟩ := hdesc
  rcases hplan with rfl | ⟨hj, -⟩
  · exact ⟨tag, htag, hjob, hu⟩
  · rw [hjob] at hj
    unfold errand at hj
    split at hj <;> cases hj

/-- The owner cannot send what it cannot open. -/
theorem start_send_of_none (net : Cluster) (hl : n.Ledger n₀ hist V log done (t :: todo))
    (hs : n.scheduler = some s) (hd : (n₀.duties hist)[t.id]? = some (i, .transfer h r))
    (hr : n₀.rank ≠ r) (hnone : n.shows h = none) :
    (start net n t).1 = net ∧ n₀.Started n (start net n t).2 hist V log done todo t.id ∧
      ¬(start net n t).2.scheduler.isSome := by
  obtain ⟨tag, -, hjob, -⟩ := hl.next_transfer hs hd
  rw [errand, if_neg hr] at hjob
  have hm := onlyMemory_openHandle n h
  have hshows := shows_openHandle n h
  have hfault := openHandle_snd_toOption n h
  unfold start
  rw [hjob]
  dsimp only
  generalize n.openHandle h = p at hm hshows hfault
  obtain ⟨p, b⟩ := p
  cases b with
  | ok block => exact absurd (hfault.trans hnone) (by simp [Except.toOption])
  | error f =>
    have hdead : ¬p.stop.scheduler.isSome := by
      rw [stop_scheduler]
      simp
    refine ⟨rfl, ⟨fun h => absurd h hdead, fun _ ids => ⟨(hl.onlyMemory hm hshows).stop ids,
      .of_same ?_ fun _ _ _ _ _ => Iff.rfl⟩⟩, hdead⟩
    rw [stop_arrivals]
    exact hm.arrivals

/-- The owner sends what it shows. -/
theorem start_send_of_some (net : Cluster) (hl : n.Ledger n₀ hist V log done (t :: todo))
    (hs : n.scheduler = some s) (hd : (n₀.duties hist)[t.id]? = some (i, .transfer h r))
    (hr : n₀.rank ≠ r) {block : List α} (hsome : n.shows h = some block) :
    ∃ tag, (n₀.handle h).tag = some tag ∧
      ∀ net', net.send n₀.rank r tag (Scalar.encodeBlock block) = .ok net' →
        (start net n t).1 = net' ∧ (start net n t).2.scheduler.isSome ∧
        (start net n t).2.arrivals = n.arrivals ∧
        (start net n t).2.Ledger n₀ hist V log (fun j => done j ∨ j = t.id) todo := by
  obtain ⟨tag, htag, hjob, -⟩ := hl.next_transfer hs hd
  rw [errand, if_neg hr] at hjob
  refine ⟨tag, htag, ?_⟩
  intro net' hsend
  have hm := onlyMemory_openHandle n h
  have hshows := shows_openHandle n h
  have hread := openHandle_snd_toOption n h
  unfold start
  rw [hjob]
  dsimp only
  generalize n.openHandle h = p at hm hshows hread
  obtain ⟨p, b⟩ := p
  cases b with
  | error f => exact absurd (hread.trans hsome) (by simp [Except.toOption])
  | ok old =>
    obtain rfl : old = block := Option.some.inj (hread.trans hsome)
    have hrank : p.rank = n₀.rank := hm.rank.trans hl.marks.rank
    have hsched : p.scheduler = n.scheduler := hm.scheduler
    dsimp only
    rw [hrank, hsend]
    refine ⟨rfl, ?_, ?_, hl.finish hs hm hd ?_⟩
    · rw [post_scheduler, hsched, hs]
      rfl
    · rw [post_arrivals]
      exact hm.arrivals
    · rw [deed_of_ne_target hr]
      exact hshows

/-- The target waits for what is sent. -/
theorem start_receive (net : Cluster) (hl : n.Ledger n₀ hist V log done (t :: todo)) (hs : n.scheduler = some s)
    (hd : (n₀.duties hist)[t.id]? = some (i, .transfer h n₀.rank)) :
    ∃ tag, (n₀.handle h).tag = some tag ∧
      start net n t = ((net.receive n₀.rank (n₀.owner h) tag).1, { n with
        arrivals := n.arrivals ++
          [⟨t.id, t.name, h, (net.receive n₀.rank (n₀.owner h) tag).2⟩] }) ∧
      (start net n t).2.Ledger n₀ hist V log done todo := by
  obtain ⟨tag, htag, hjob, -⟩ := hl.next_transfer hs hd
  rw [errand, if_pos rfl] at hjob
  refine ⟨tag, htag, ?_⟩
  have hticket : net.receive n.rank (n₀.owner h) tag = net.receive n₀.rank (n₀.owner h) tag := by
    rw [hl.marks.rank]
  unfold start
  rw [hjob]
  dsimp only
  rw [hticket]
  exact ⟨rfl, hl.same (hl.account.startReceive hs hjob) (hl.marks.of_handles rfl rfl rfl)⟩

/-- A block that has come replaces the copy. -/
theorem arrive (hl : n.Ledger n₀ hist V log done todo) {j : Nat} {a : Arrival}
    (ha : n.arrivals[j]? = some a)
    (hd : (n₀.duties hist)[a.id]? = some (i, .transfer a.handle n₀.rank)) {block old : List α}
    (hV : V i = some block) (hold : n.shows a.handle = some old)
    (hlen : old.length = block.length) :
    (({ n with arrivals := n.arrivals.eraseIdx j } : Node α).finish a
      (.delivered (Scalar.encodeBlock block))).Ledger n₀ hist V log (fun k => done k ∨ k = a.id) todo ∧
    (({ n with arrivals := n.arrivals.eraseIdx j } : Node α).finish a
      (.delivered (Scalar.encodeBlock block))).arrivals = n.arrivals.eraseIdx j := by
  have hb : a.handle < n.handles.length := by
    refine hl.bound_of_use (a := .write) hd ?_
    rw [deed_of_target rfl]
    exact List.mem_cons_self
  obtain ⟨m, hm₀⟩ : ∃ m, m = ({ n with arrivals := n.arrivals.eraseIdx j } : Node α) := ⟨_, rfl⟩
  have hmarks : m.Marked n₀ (lines hist) := hm₀ ▸ hl.marks.of_handles rfl rfl rfl
  have hmb : a.handle < m.handles.length := by rw [hm₀]; exact hb
  have hmshows : m.shows = n.shows := by rw [hm₀]; rfl
  have hm := onlyMemory_openHandle m a.handle
  have hshows := shows_openHandle m a.handle
  have hread := openHandle_snd_toOption m a.handle
  have hopened : (m.openHandle a.handle).1.Opened a.handle := by
    unfold Opened
    rw [openHandle_fst, handle_setHandle, if_pos ⟨rfl, hmb⟩]
    exact Handle.access_memory_ne_absent _
  rw [← hm₀]
  unfold Node.finish accept
  generalize m.openHandle a.handle = p at hm hshows hread hopened
  obtain ⟨p, b⟩ := p
  rw [hmshows] at hread hshows
  cases b with
  | error f => exact absurd (hread.trans hold) (by simp [Except.toOption])
  | ok b =>
    obtain rfl : b = old := Option.some.inj (hread.trans hold)
    have hsize : b.length * Scalar.size α = (Scalar.encodeBlock block).length := by
      rw [Scalar.length_encodeBlock, hlen]
    dsimp only at hm hshows hread hopened ⊢
    rw [if_pos hsize]
    dsimp only
    have hm' := onlyMemory_store p a.handle (Scalar.decodeBlock b.length (Scalar.encodeBlock block))
    have hboth := hm.trans hm'
    refine ⟨hl.same (hl.account.receive ha (hm₀ ▸ hboth.toOnlyBuffers) rfl (getElem?_deeds hd) ?_)
      ((hmarks.onlyMemory hboth).post _), ?_⟩
    swap
    · rw [post_arrivals, hboth.arrivals, hm₀]
    rw [shows_setHandle (hm.length ▸ hmb), Handle.shows_store hopened, deed_of_target rfl, hV, hlen,
      Scalar.decodeBlock_encodeBlock, hshows]
    show n.shows.set a.handle ((p.shows a.handle).map _) = n.shows.set a.handle (some block)
    rw [hshows, hold, Option.map_some, overlay_of_length hlen]

end Ledger

end Node

end TiledTensor
