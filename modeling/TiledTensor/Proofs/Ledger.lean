import TiledTensor.Proofs.Marks

/-!
# The account of a history

`Node.Ledger` ties everything that is known about a rank to its history: the log lists exactly its
duties, the deeds of the log are those of the duties, marks follow the lines, and the rank's own
tasks use only what they may.  What the rank receives from others is not known to it beforehand; it
enters as a table `V` of the value that is received for each line.

Most of what a rank does is nobody else's business.  `Node.Quiet` says so: no message is sent or
received, and what has been sent so far stays what it was.
-/

namespace TiledTensor

variable {α : Type}

/-- The buffers of a call that a rank makes for itself. -/
def Entry.uses : Entry α → List (HandleId × Access)
  | task _ op => op.uses
  | guard _ h a _ => [(h, a)]
  | transfer .. | flush _ => []

theorem Entry.uses_put {id : TaskId} {block : List α} {e : Entry α} :
    (e.put id block).uses = e.uses := by
  rcases put_cases id block e with h | ⟨b, a, puts, rfl, h⟩
  · rw [h]
  · rw [h]
    rfl

namespace Node

/-- The task that is queued for a duty. -/
def Describes (n : Node α) : Nat × Entry α → Task α → Prop
  | (_, .task id op), t => t.id = id ∧ t.job = .compute op
  | (_, .guard id h a _), t => t.id = id ∧ t.job = .grant ∧ t.uses = [(h, a)]
  | (_, .transfer h r), t => ∃ tag, (n.handle h).tag = some tag ∧ t.job = (n.errand h r tag).2
  | (_, .flush h), t => t.job = .evict h

theorem describes_put {n : Node α} {i : Nat} {id : TaskId} {block : List α} {e : Entry α}
    {t : Task α} : n.Describes (i, e.put id block) t ↔ n.Describes (i, e) t := by
  rcases e.put_cases id block with h | ⟨b, a, puts, rfl, h⟩
  · rw [h]
  · rw [h]
    exact Iff.rfl

variable [Scalar α]

/-- What a duty does to the values of buffers. -/
def deed (n : Node α) (V : Nat → Option (List α)) : Nat × Entry α → Deed α
  | (_, .task _ op) => Deed.ofOp op
  | (_, .guard _ h a puts) => Deed.puts h a puts
  | (i, .transfer h t) => if n.rank = t then Deed.fill h (V i) else Deed.idle [(h, .read)]
  | (_, .flush h) => Deed.fill h (n.handle h).blank

theorem deed_of_target {n : Node α} {V : Nat → Option (List α)} {i : Nat} {h : HandleId} {t : Rank}
    (ht : n.rank = t) : n.deed V (i, .transfer h t) = Deed.fill h (V i) :=
  if_pos ht

theorem deed_of_ne_target {n : Node α} {V : Nat → Option (List α)} {i : Nat} {h : HandleId}
    {t : Rank} (ht : n.rank ≠ t) : n.deed V (i, .transfer h t) = Deed.idle [(h, .read)] :=
  if_neg ht

/-- What the duties of a history do to the values of buffers. -/
def deeds (n : Node α) (V : Nat → Option (List α)) (hist : List (Entry α)) : List (Deed α) :=
  (n.duties hist).map (n.deed V)

variable {n n' m n₀ : Node α} {hist : List (Entry α)} {V : Nat → Option (List α)}
  {log : List (Task α)} {done done' : TaskId → Prop} {todo todo' : List (Task α)} {t : Task α}
  {e : Entry α} {k : TaskId} {h : HandleId} {s : Scheduler α} {net net' : Cluster}

theorem deeds_append_of_queues (hq : n.Queues (lines hist) e) :
    n.deeds V (hist ++ [e]) = n.deeds V hist ++ [n.deed V ((lines hist).length, e)] := by
  rw [deeds, duties_append_of_queues hq, List.map_append]
  rfl

theorem deeds_append_of_not_queues (hq : ¬n.Queues (lines hist) e) :
    n.deeds V (hist ++ [e]) = n.deeds V hist := by
  rw [deeds, duties_append_of_not_queues hq]
  rfl

/-- Everything that is known about the rank belongs to its history. -/
structure Ledger (n n₀ : Node α) (hist : List (Entry α)) (V : Nat → Option (List α))
    (log : List (Task α)) (done : TaskId → Prop) (todo : List (Task α)) : Prop where
  account : n.Account log done todo n₀.shows (n₀.deeds V hist)
  describes : ∀ (k : TaskId) d t, (n₀.duties hist)[k]? = some d → log[k]? = some t →
    n₀.Describes d t
  marks : n.Marked n₀ (lines hist)
  allowed : ∀ d ∈ n₀.duties hist, n₀.Allowed ((lines hist).take d.1) d.2.uses

theorem getElem?_deeds {d : Nat × Entry α} (hd : (n₀.duties hist)[k]? = some d) :
    (n₀.deeds V hist)[k]? = some (n₀.deed V d) := by
  unfold deeds
  rw [List.getElem?_map, hd]
  rfl

/-- A rank of which nothing has been asked has nothing on its ledger. -/
theorem Fresh.ledger (h₀ : n.Fresh) (V : Nat → Option (List α)) :
    n.Ledger n [] V [] (fun _ => False) [] := by
  refine ⟨h₀.account, by simp, ⟨rfl, rfl, rfl, fun _ => rfl, fun _ => rfl, fun _ => rfl, ?_, ?_⟩, ?_⟩
  · intro h _ _ r
    rw [h₀.unsent h]
    exact iff_of_false List.not_mem_nil fun hc => hc rfl
  · intro h _ _
    exact iff_of_false (h₀.uncached h) fun hc => hc rfl
  · intro d hd
    cases hd

namespace Ledger

theorem length_eq (hl : n.Ledger n₀ hist V log done todo) : (n₀.duties hist).length = log.length := by
  have := hl.account.faithful.length_eq
  rwa [deeds, List.length_map] at this

/-- Every logged task has its duty. -/
theorem exists_duty (hl : n.Ledger n₀ hist V log done todo) (ht : log[k]? = some t) :
    ∃ d, (n₀.duties hist)[k]? = some d ∧ n₀.Describes d t := by
  have hk : k < (n₀.duties hist).length := hl.length_eq ▸ lt_of_getElem?_eq_some ht
  have hd : (n₀.duties hist)[k]? = some (n₀.duties hist)[k] := List.getElem?_eq_getElem hk
  exact ⟨_, hd, hl.describes k _ t hd ht⟩

/-- Every duty has its task in the log. -/
theorem exists_task (hl : n.Ledger n₀ hist V log done todo) {d : Nat × Entry α}
    (hd : (n₀.duties hist)[k]? = some d) : ∃ t, log[k]? = some t ∧ n₀.Describes d t := by
  have hk : k < log.length := hl.length_eq ▸ lt_of_getElem?_eq_some hd
  have ht : log[k]? = some log[k] := List.getElem?_eq_getElem hk
  exact ⟨_, ht, hl.describes k d _ hd ht⟩

/-! ## What keeps it -/

/-- The history stays. -/
theorem same (hl : n.Ledger n₀ hist V log done todo)
    (ha : n'.Account log done' todo' n₀.shows (n₀.deeds V hist)) (hm : n'.Marked n₀ (lines hist)) :
    n'.Ledger n₀ hist V log done' todo' :=
  ⟨ha, hl.describes, hm, hl.allowed⟩

/-- What a rank may do depends only on the lines before. -/
theorem allowed_append (hl : n.Ledger n₀ hist V log done todo) {d : Nat × Entry α}
    (hd : d ∈ n₀.duties hist) : n₀.Allowed ((lines (hist ++ [e])).take d.1) d.2.uses := by
  rw [lines_append_singleton, List.take_append_of_le_length (line_le_of_mem_duties hd)]
  exact hl.allowed d hd

/-- A task is queued for a new entry. -/
theorem append (hl : n.Ledger n₀ hist V log done todo) (hq : n₀.Queues (lines hist) e)
    (ha : n'.Account (log ++ [t]) done todo n₀.shows
      (n₀.deeds V hist ++ [n₀.deed V ((lines hist).length, e)]))
    (hdesc : n₀.Describes ((lines hist).length, e) t) (hm : n'.Marked n₀ (lines (hist ++ [e])))
    (hallow : n₀.Allowed (lines hist) e.uses) :
    n'.Ledger n₀ (hist ++ [e]) V (log ++ [t]) done todo := by
  have hduties := duties_append_of_queues hq
  refine ⟨?_, ?_, hm, ?_⟩
  · rw [deeds_append_of_queues hq]
    exact ha
  · intro k d u hd hu
    rw [hduties] at hd
    rcases getElem?_append_singleton_eq_some hu with hu | ⟨rfl, rfl⟩
    · rw [List.getElem?_append_left (hl.length_eq ▸ lt_of_getElem?_eq_some hu)] at hd
      exact hl.describes k d u hd hu
    · rw [← hl.length_eq, List.getElem?_concat_length, Option.some.injEq] at hd
      exact hd ▸ hdesc
  · intro d hd
    rw [hduties, List.mem_append, List.mem_singleton] at hd
    rcases hd with hd | rfl
    · exact hl.allowed_append hd
    · rw [lines_append_singleton, List.take_left]
      exact hallow

/-- No task is queued for a new entry. -/
theorem skip (hl : n.Ledger n₀ hist V log done todo) (hq : ¬n₀.Queues (lines hist) e)
    (ha : n'.Account log done todo n₀.shows (n₀.deeds V hist))
    (hm : n'.Marked n₀ (lines (hist ++ [e]))) :
    n'.Ledger n₀ (hist ++ [e]) V log done todo := by
  have hduties := duties_append_of_not_queues hq
  refine ⟨?_, ?_, hm, ?_⟩
  · rw [deeds_append_of_not_queues hq]
    exact ha
  · rw [hduties]
    exact hl.describes
  · intro d hd
    rw [hduties] at hd
    exact hl.allowed_append hd

end Ledger

/-! ## Nobody else's business -/

/-- No message is sent or received, and what has been sent stays what it was. -/
structure Quiet (n₀ n n' : Node α) (hist hist' : List (Entry α)) (V : Nat → Option (List α))
    (done done' : TaskId → Prop) : Prop where
  arrivals : n'.arrivals = n.arrivals
  lines : lines hist <+: lines hist'
  kept : ∀ (k : TaskId) i h t, (n₀.duties hist)[k]? = some (i, .transfer h t) →
    (n₀.duties hist')[k]? = some (i, .transfer h t)
  fresh : ∀ (k : TaskId) i h t, (n₀.duties hist')[k]? = some (i, .transfer h t) →
    (n₀.duties hist)[k]? = some (i, .transfer h t) ∨
      ((TiledTensor.lines hist).length ≤ i ∧ ¬done' k)
  done_iff : ∀ (k : TaskId) i h t, (n₀.duties hist)[k]? = some (i, .transfer h t) →
    (done' k ↔ done k)
  stable : ∀ (k : TaskId) i h t, (n₀.duties hist)[k]? = some (i, .transfer h t) → n₀.rank ≠ t →
    done k → Deed.after n₀.shows ((n₀.deeds V hist').take k) h =
      Deed.after n₀.shows ((n₀.deeds V hist).take k) h

/-- The history stays, and no half of a transfer is done. -/
theorem Quiet.of_same (ha : n'.arrivals = n.arrivals)
    (hd : ∀ (k : TaskId) i h t, (n₀.duties hist)[k]? = some (i, .transfer h t) →
      (done' k ↔ done k)) : n₀.Quiet n n' hist hist V done done' :=
  ⟨ha, List.prefix_refl _, fun _ _ _ _ h => h, fun _ _ _ _ h => Or.inl h, hd,
    fun _ _ _ _ _ _ _ => rfl⟩

namespace Ledger

/-- A new entry changes nothing about those before. -/
theorem quiet_append (hl : n.Ledger n₀ hist V log done todo) (ha : n'.arrivals = n.arrivals) :
    n₀.Quiet n n' hist (hist ++ [e]) V done done := by
  by_cases hq : n₀.Queues (TiledTensor.lines hist) e
  · have hduties := duties_append_of_queues hq
    refine ⟨ha, ?_, ?_, ?_, fun _ _ _ _ _ => Iff.rfl, ?_⟩
    · rw [lines_append]
      exact List.prefix_append _ _
    · intro k i h t hd
      rw [hduties, List.getElem?_append_left (lt_of_getElem?_eq_some hd), hd]
    · intro k i h t hd
      rw [hduties] at hd
      rcases getElem?_append_singleton_eq_some hd with hd | ⟨rfl, hnew⟩
      · exact Or.inl hd
      · refine Or.inr ⟨Nat.le_of_eq (Prod.mk.inj hnew).1, ?_⟩
        intro hdone
        have := hl.account.orderly.sound.lt _ hdone
        rw [hl.length_eq] at this
        exact Nat.lt_irrefl _ this
    · intro k i h t hd _ _
      have hk := lt_of_getElem?_eq_some hd
      rw [deeds_append_of_queues hq, List.take_append_of_le_length]
      rw [deeds, List.length_map]
      exact Nat.le_of_lt hk
  · have hduties := duties_append_of_not_queues hq
    refine ⟨ha, ?_, ?_, ?_, fun _ _ _ _ _ => Iff.rfl, ?_⟩
    · rw [lines_append]
      exact List.prefix_append _ _
    · intro k i h t hd
      rwa [hduties]
    · intro k i h t hd
      rw [hduties] at hd
      exact Or.inl hd
    · intro k i h t _ _ _
      rw [deeds_append_of_not_queues hq]

/-! ### Calls -/

/-- An operation is submitted. -/
theorem submit (hl : n.Ledger n₀ hist V log done todo) {op : Op α} (h : n.submit op = (n', .ok ()))
    (hb : ∀ u ∈ op.uses, u.1 < n.handles.length ∧ u.2 ≠ .scratch) :
    n'.Ledger n₀ (hist ++ [.task n.nextTask op]) V
        (log ++ [⟨log.length, op.name, op.uses, .compute op⟩]) done todo ∧
      n₀.Quiet n n' hist (hist ++ [.task n.nextTask op]) V done done := by
  have hallow := allowed_of_submit hl.marks h hb
  obtain ⟨id, hok⟩ := submit_eq_ok h
  have hm := onlyBuffers_markWritten n op.uses
  have hmarks : n'.Marked n₀ (lines (hist ++ [.task n.nextTask op])) := by
    rw [lines_append_singleton]
    exact (List.append_nil (lines hist)).symm ▸
      (hl.marks.markWritten fun u hu hw => hallow.owner_of_writes hu hw).enqueue hok
  have harr : n'.arrivals = n.arrivals := by
    obtain ⟨-, -, hn'⟩ := enqueue_eq_ok hok
    rw [hn', hm.eq]
  refine ⟨hl.append (e := .task n.nextTask op) trivial (hl.account.submit h hb) ?_ hmarks hallow,
    hl.quiet_append harr⟩
  exact ⟨hl.account.orderly.sound.next.symm, rfl⟩

/-- An accessor is asked for. -/
theorem acquire (hl : n.Ledger n₀ hist V log done todo) {a : Access} {id : TaskId}
    (hok : n.acquire h a = (n', .ok id)) (hb : h < n.handles.length) :
    n'.Ledger n₀ (hist ++ [.guard n.nextTask h a []]) V
        (log ++ [⟨log.length, "acquire", [(h, a)], .grant⟩]) done todo ∧
      n₀.Quiet n n' hist (hist ++ [.guard n.nextTask h a []]) V done done := by
  obtain ⟨hs, hobs, -, -, hn'⟩ := acquire_eq_ok hok
  have hm := onlyBuffers_markWritten n [(h, a)]
  have hallow : n₀.Allowed (lines hist) [(h, a)] := by
    refine hl.marks.allowed ?_ ?_
    · intro u hu
      rw [List.mem_singleton.mp hu]
      exact ⟨hb, hs⟩
    · intro u hu
      rw [List.mem_singleton.mp hu]
      exact hobs
  have hmarks : n'.Marked n₀ (lines (hist ++ [.guard n.nextTask h a []])) := by
    rw [lines_append_singleton, hn']
    exact (List.append_nil (lines hist)).symm ▸
      (hl.marks.markWritten fun u hu hw => hallow.owner_of_writes hu hw).congr rfl rfl rfl
        fun _ => rfl
  refine ⟨hl.append (e := .guard n.nextTask h a []) trivial
    (hl.account.acquire hok hb rfl (Deed.puts_nil_effect h a)) ?_ hmarks hallow,
    hl.quiet_append ?_⟩
  · exact ⟨hl.account.orderly.sound.next.symm, rfl, rfl⟩
  · rw [hn', hm.eq]

/-- A transfer is asked for. -/
theorem transfer (hl : n.Ledger n₀ hist V log done todo) {r : Rank}
    (hok : n.transfer h r = (n', .ok ())) (hb : h < n.handles.length) :
    ∃ log', n'.Ledger n₀ (hist ++ [.transfer h r]) V log' done todo ∧
      n₀.Quiet n n' hist (hist ++ [.transfer h r]) V done done := by
  have hline : lines (hist ++ [.transfer h r]) = lines hist ++ [.transfer h r] := by
    rw [lines_append_singleton]
    rfl
  obtain ⟨-, ⟨hq, rfl, hm⟩ | ⟨hq, tag, name, id, m, htag, ho, hshows, hm, hp⟩⟩ :=
    transfer_eq_ok hl.marks (hl.marks.length ▸ hb) hok
  · exact ⟨log, hl.skip hq hl.account (hline ▸ hm), hl.quiet_append rfl⟩
  · have hscratch : (n₀.errand (α := α) h r tag).1 ≠ .scratch := by
      unfold errand
      split <;> simp
    have ha := hl.account.onlyBuffers ho hshows
    refine ⟨_, hl.append (e := .transfer h r) hq (ha.enqueue hp ?_ ?_ ?_ ?_) ⟨tag, htag, rfl⟩
      (hline ▸ hm.enqueue hp) ?_, hl.quiet_append ?_⟩
    · refine ⟨by simpa using hscratch, ?_⟩
      by_cases hr : n₀.rank = r
      · rw [errand, if_pos hr]
      · rw [errand, if_neg hr]
    · intro u hu
      rw [List.mem_singleton.mp hu, ho.length]
      exact hb
    · by_cases hr : n₀.rank = r
      · rw [deed_of_target hr, errand, if_pos hr]
        rfl
      · rw [deed_of_ne_target hr, errand, if_neg hr]
        rfl
    · intro hj
      unfold errand at hj
      split at hj <;> cases hj
    · intro u hu
      cases hu
    · obtain ⟨-, -, hn'⟩ := enqueue_eq_ok hp
      rw [hn', ho.eq]

/-- A flush is asked for. -/
theorem flush (hl : n.Ledger n₀ hist V log done todo) (hok : n.flush h = (n', .ok ()))
    (hb : h < n.handles.length) :
    ∃ log', n'.Ledger n₀ (hist ++ [.flush h]) V log' done todo ∧
      n₀.Quiet n n' hist (hist ++ [.flush h]) V done done := by
  have hline : lines (hist ++ [.flush h]) = lines hist ++ [.flush h] := by
    rw [lines_append_singleton]
    rfl
  obtain ⟨hq, ho, hshows, hm⟩ | ⟨hq, id, m, ho, hshows, hm, hp⟩ :=
    flush_eq_ok hl.marks (hl.marks.length ▸ hb) hok
  · refine ⟨log, hl.skip hq (hl.account.onlyBuffers ho hshows) (hline ▸ hm), hl.quiet_append ?_⟩
    rw [ho.eq]
  · have ha := hl.account.onlyBuffers ho hshows
    refine ⟨_, hl.append (e := .flush h) hq (ha.enqueue hp ⟨by simp, rfl⟩ ?_ rfl (by simp)) rfl
      (hline ▸ hm.enqueue hp) ?_, hl.quiet_append ?_⟩
    · intro u hu
      rw [List.mem_singleton.mp hu, ho.length]
      exact hb
    · intro u hu
      cases hu
    · obtain ⟨-, -, hn'⟩ := enqueue_eq_ok hp
      rw [hn', ho.eq]

/-! ### Accessors and computations -/

/-- The task of a transfer sends or receives. -/
theorem job_of_transfer (hl : n.Ledger n₀ hist V log done todo) {i : Nat} {r : Rank}
    (hd : (n₀.duties hist)[k]? = some (i, .transfer h r)) (ht : log[k]? = some t) :
    ∃ tag, (n₀.handle h).tag = some tag ∧ t.job = (n₀.errand h r tag).2 :=
  hl.describes k _ t hd ht

/-- A task that neither sends nor receives is done. -/
theorem done_iff_of_job (hl : n.Ledger n₀ hist V log done todo) (ht : log[k]? = some t)
    (hs : ∀ h r tag, t.job ≠ .send h r tag) (hr : ∀ h r tag, t.job ≠ .receive h r tag) (p : Prop)
    (j : TaskId) (i : Nat) (h : HandleId) (r : Rank)
    (hd : (n₀.duties hist)[j]? = some (i, .transfer h r)) : (done j ∨ (j = k ∧ p)) ↔ done j := by
  refine or_iff_left ?_
  rintro ⟨rfl, -⟩
  obtain ⟨tag, -, hj⟩ := hl.job_of_transfer hd ht
  by_cases hn : n₀.rank = r
  · rw [errand, if_pos hn] at hj
    exact hr _ _ _ hj
  · rw [errand, if_neg hn] at hj
    exact hs _ _ _ hj

/-- Buffers are opened. -/
theorem onlyMemory (hl : n.Ledger n₀ hist V log done todo) (hm : n.OnlyMemory m)
    (hshows : m.shows = n.shows) : m.Ledger n₀ hist V log done todo :=
  hl.same (hl.account.onlyBuffers hm.toOnlyBuffers hshows) (hl.marks.onlyMemory hm)

/-- An accessor is given up. -/
theorem release (hl : n.Ledger n₀ hist V log done todo) {a : Accessor}
    (ha : n.accessors.find? k = some a) :
    (n.release k).Ledger n₀ hist V log (fun j => done j ∨ (j = k ∧ a.phase = .granted)) todo ∧
      n₀.Quiet n (n.release k) hist hist V done
        (fun j => done j ∨ (j = k ∧ a.phase = .granted)) := by
  obtain ⟨t, ht, hjob, -⟩ := hl.account.orderly.sound.accessors k a ha
  have hmarks : ({ n with accessors := n.accessors.erase k } : Node α).Marked n₀ (lines hist) :=
    hl.marks.of_handles rfl rfl rfl
  refine ⟨hl.same (hl.account.release ha) (hmarks.post _), .of_same ?_ ?_⟩
  · rw [Node.release, post_arrivals]
  · exact hl.done_iff_of_job ht (by simp [hjob]) (by simp [hjob]) _

/-- A computation that is ready is in the history. -/
theorem entry_of_work (hl : n.Ledger n₀ hist V log done todo) {w : Work α} (hw : w ∈ n.work) :
    ∃ i t, (n₀.duties hist)[w.id]? = some (i, .task w.id w.op) ∧ log[w.id]? = some t ∧
      t.job = .compute w.op := by
  obtain ⟨t, ht, hjob⟩ := hl.account.orderly.sound.work w hw
  have hid := (hl.account.orderly.sound.proper w.id t ht).1
  obtain ⟨⟨i, e⟩, hd, hdesc⟩ := hl.exists_duty ht
  cases e with
  | task id op =>
    obtain ⟨rfl, hjob'⟩ := hdesc
    obtain rfl := Job.compute.inj (hjob.symm.trans hjob')
    exact ⟨i, t, hid ▸ hd, ht, hjob⟩
  | guard id h a puts => exact absurd (hjob.symm.trans hdesc.2.1) (by simp)
  | transfer h r =>
    obtain ⟨tag, -, hj⟩ := hdesc
    unfold errand at hj
    split at hj <;> exact absurd (hjob.symm.trans hj) (by simp)
  | flush h => exact absurd (hjob.symm.trans hdesc) (by simp)

/-- A computation runs. -/
theorem runWork (hl : n.Ledger n₀ hist V log done todo) {i : Nat} (h : n.runWork i = some n') :
    ∃ w, n.work[i]? = some w ∧ n'.Ledger n₀ hist V log (fun j => done j ∨ j = w.id) todo ∧
      n₀.Quiet n n' hist hist V done (fun j => done j ∨ j = w.id) := by
  obtain ⟨w, hw, rfl⟩ := runWork_eq_some_iff.mp h
  have hm := onlyMemory_run ({ n with work := n.work.eraseIdx i } : Node α) w.op
  obtain ⟨j, t, hd, ht, hjob⟩ := hl.entry_of_work (List.mem_of_getElem? hw)
  have hmarks : ({ n with work := n.work.eraseIdx i } : Node α).Marked n₀ (lines hist) :=
    hl.marks.of_handles rfl rfl rfl
  refine ⟨w, hw, hl.same (hl.account.runWork hw (getElem?_deeds hd)) ((hmarks.onlyMemory hm).post _),
    .of_same ?_ ?_⟩
  · rw [post_arrivals, hm.eq]
  · intro j i h r hd'
    have := hl.done_iff_of_job ht (by simp [hjob]) (by simp [hjob]) True j i h r hd'
    rwa [and_true] at this

/-- Which duty an accessor belongs to. -/
theorem duty_of_accessor (hl : n.Ledger n₀ hist V log done todo) {a : Accessor}
    (ha : n.accessors.find? k = some a) : ∃ i puts,
      (n₀.duties hist)[k]? = some (i, .guard k a.handle a.access puts) := by
  obtain ⟨t, ht, hjob, huses⟩ := hl.account.orderly.sound.accessors k a ha
  have hid := (hl.account.orderly.sound.proper k t ht).1
  obtain ⟨⟨i, e⟩, hd, hdesc⟩ := hl.exists_duty ht
  cases e with
  | task id op => exact absurd (hjob.symm.trans hdesc.2) (by simp)
  | guard id h b puts =>
    obtain ⟨hj, -, huses'⟩ := hdesc
    obtain rfl : id = k := hj.symm.trans hid
    rw [huses, List.cons.injEq, Prod.mk.injEq] at huses'
    obtain ⟨⟨rfl, rfl⟩, -⟩ := huses'
    exact ⟨i, puts, hd⟩
  | transfer h r =>
    obtain ⟨tag, -, hj⟩ := hdesc
    unfold errand at hj
    split at hj <;> exact absurd (hjob.symm.trans hj) (by simp)
  | flush h => exact absurd (hjob.symm.trans hdesc) (by simp)

/-- Only the duty of the accessor changes when its holder writes. -/
theorem deeds_map_put (hl : n.Ledger n₀ hist V log done todo) {i : Nat} {a : Access}
    {puts : List (List α)} (hk : (n₀.duties hist)[k]? = some (i, .guard k h a puts))
    (block : List α) :
    n₀.deeds V (hist.map (Entry.put k block)) =
      (n₀.deeds V hist).set k (Deed.puts h a (puts ++ [block])) := by
  unfold deeds
  rw [duties_map_put]
  apply List.ext_getElem?
  intro j
  rw [List.map_map, List.getElem?_map, List.getElem?_set, List.getElem?_map, List.length_map]
  by_cases hj : k = j
  · subst hj
    rw [if_pos rfl, if_pos (lt_of_getElem?_eq_some hk), hk]
    simp [Entry.put, deed]
  · rw [if_neg hj]
    cases hd : (n₀.duties hist)[j]? with
    | none => rfl
    | some d =>
      obtain ⟨t, ht, hdesc⟩ := hl.exists_task hd
      have hid := (hl.account.orderly.sound.proper j t ht).1
      obtain ⟨l, e⟩ := d
      cases e with
      | guard id h' a' puts' =>
        -- accessors are numbered by the places of their duties
        have hne : id ≠ k := fun he => hj ((hdesc.1.trans he).symm.trans hid)
        simp only [Option.map_some, Function.comp, Entry.put, if_neg hne]
      | task id op => rfl
      | transfer h' r => rfl
      | flush h' => rfl

/-- The holder of an accessor writes. -/
theorem put (hl : n.Ledger n₀ hist V log done todo) {a : Accessor} {block : List α}
    (hk : n.held k = some a) (h : n.enterWrite a block = some n') :
    n'.Ledger n₀ (hist.map (Entry.put k block)) V log done todo ∧
      n₀.Quiet n n' hist (hist.map (Entry.put k block)) V done done := by
  obtain ⟨hacc, hg⟩ := held_eq_some_iff.mp hk
  obtain ⟨i, puts, hd⟩ := hl.duty_of_accessor hacc
  have hs := hl.account.orderly.sound
  obtain ⟨t, ht, -, huses⟩ := hs.accessors k a hacc
  have hb : a.handle < n.handles.length :=
    hl.account.faithful.bounds t (List.mem_of_getElem? ht) (a.handle, a.access) (by simp [huses])
  obtain ⟨hm, -⟩ := Account.enterWrite_eq_some hb h
  have hmap := hl.deeds_map_put hd block
  have hput := hl.account.put hk h (getElem?_deeds hd) rfl
  have hlines := lines_map_put k block hist
  have hduties : n₀.duties (hist.map (Entry.put k block)) = _ := duties_map_put k block
  have hget : ∀ (j : TaskId) i h t, (n₀.duties (hist.map (Entry.put k block)))[j]? =
      some (i, .transfer h t) ↔ (n₀.duties hist)[j]? = some (i, .transfer h t) := by
    intro j i h t
    rw [hduties, List.getElem?_map, Option.map_eq_some_iff]
    constructor
    · rintro ⟨⟨l, e⟩, he, heq⟩
      obtain ⟨rfl, heq⟩ := Prod.mk.inj heq
      rcases e.put_cases k block with hc | ⟨b, a, puts, rfl, hc⟩
      · rw [he, ← heq, hc]
      · rw [hc] at heq
        cases heq
    · intro he
      exact ⟨_, he, rfl⟩
  refine ⟨⟨?_, ?_, ?_, ?_⟩, ⟨?_, ?_, ?_, ?_, fun _ _ _ _ _ => Iff.rfl, ?_⟩⟩
  · rw [hmap, Deed.puts_append]
    exact hput
  · intro j d u hd hu
    rw [hduties, List.getElem?_map] at hd
    obtain ⟨d₀, hd₀, rfl⟩ := Option.map_eq_some_iff.mp hd
    exact describes_put.mpr (hl.describes j d₀ u hd₀ hu)
  · rw [hlines]
    exact hl.marks.onlyMemory hm
  · intro d hd
    rw [hduties, List.mem_map] at hd
    obtain ⟨d₀, hd₀, rfl⟩ := hd
    rw [hlines, Entry.uses_put]
    exact hl.allowed d₀ hd₀
  · rw [hm.eq]
  · exact hlines.symm ▸ List.prefix_refl _
  · intro j i h t he
    exact (hget j i h t).mpr he
  · intro j i h t he
    exact Or.inl ((hget j i h t).mp he)
  · intro j i b r hj hr hdone
    rw [hmap]
    have hpre : ∀ l, Precedes log l j → done l := fun l hl => hs.closed l j hl hdone
    refine hl.account.faithful.stable hs ?_ ?_ (getElem?_deeds hj) hpre (a := .read) ?_
    · apply List.ext_getElem?
      intro l
      rw [List.getElem?_map, List.getElem?_map]
      by_cases hkl : k = l
      · subst hkl
        rw [List.getElem?_set_self (lt_of_getElem?_eq_some (getElem?_deeds hd)), getElem?_deeds hd]
        rfl
      · rw [List.getElem?_set_ne hkl]
    · intro l hl'
      rw [List.getElem?_set_ne]
      rintro rfl
      exact hs.undone k (Or.inr (Or.inr ⟨a, hacc, hg⟩)) hl'
    · rw [deed_of_ne_target hr]
      exact List.mem_cons_self

/-! ### Actions and events -/

/-- Whatever happens on a rank is nobody else's business, but for the scheduler's turns and for
receives. -/
theorem act (hl : n.Ledger n₀ hist V log done todo) {a : Act α} (h : n.Acts net a net' n')
    (htake : a ≠ .take) (harrive : ∀ i, a ≠ .arrive i) :
    net' = net ∧ ∃ log' done', n'.Ledger n₀ (a.record n hist) V log' done' todo ∧
      n₀.Quiet n n' hist (a.record n hist) V done done' ∧
      Gains (fun k => a.Ends n k) done done' := by
  cases h with
  | submit bounds ok =>
    obtain ⟨hl', hq⟩ := hl.submit ok bounds
    exact ⟨rfl, _, _, hl', hq, .refl _ _⟩
  | transfer bound ok =>
    obtain ⟨log', hl', hq⟩ := hl.transfer ok bound
    exact ⟨rfl, log', _, hl', hq, .refl _ _⟩
  | flush bound ok =>
    obtain ⟨log', hl', hq⟩ := hl.flush ok bound
    exact ⟨rfl, log', _, hl', hq, .refl _ _⟩
  | acquire bound ok =>
    obtain ⟨hl', hq⟩ := hl.acquire ok bound
    exact ⟨rfl, _, _, hl', hq, .refl _ _⟩
  | release found =>
    obtain ⟨hl', hq⟩ := hl.release found
    exact ⟨rfl, _, _, hl', hq, fun _ => Or.inl, fun j hj => hj.imp_right fun h => h.1.symm⟩
  | @look id a held =>
    have hm := onlyMemory_openHandle n a.handle
    exact ⟨rfl, _, _, hl.onlyMemory hm (shows_openHandle n a.handle),
      .of_same hm.arrivals fun _ _ _ _ _ => Iff.rfl, .refl _ _⟩
  | put held ok =>
    obtain ⟨hl', hq⟩ := hl.put held ok
    exact ⟨rfl, _, _, hl', hq, .refl _ _⟩
  | take ok => exact absurd rfl htake
  | work ok =>
    obtain ⟨w, hw, hl', hq⟩ := hl.runWork ok
    exact ⟨rfl, _, _, hl', hq, fun _ => Or.inl,
      fun j hj => hj.imp_right fun h => ⟨w, hw, h.symm⟩⟩
  | @arrive i net' n' ok => exact absurd rfl (harrive i)

/-- The scheduler changes only when it takes an event. -/
theorem scheduler_of_act (hl : n.Ledger n₀ hist V log done todo) {a : Act α}
    (h : n.Acts net a net' n') (htake : a ≠ .take) (harrive : ∀ i, a ≠ .arrive i) :
    n'.scheduler = n.scheduler := by
  cases h with
  | @submit op n' bounds ok =>
    obtain ⟨id, hok⟩ := submit_eq_ok ok
    obtain ⟨-, -, hn'⟩ := enqueue_eq_ok hok
    rw [hn']
    exact (onlyBuffers_markWritten n op.uses).scheduler
  | transfer bound ok =>
    obtain ⟨-, ⟨-, rfl, -⟩ | ⟨-, tag, name, id, m, -, ho, -, -, hp⟩⟩ :=
      transfer_eq_ok hl.marks (hl.marks.length ▸ bound) ok
    · rfl
    · obtain ⟨-, -, hn'⟩ := enqueue_eq_ok hp
      rw [hn']
      exact ho.scheduler
  | flush bound ok =>
    obtain ⟨-, ho, -, -⟩ | ⟨-, id, m, ho, -, -, hp⟩ :=
      flush_eq_ok hl.marks (hl.marks.length ▸ bound) ok
    · exact ho.scheduler
    · obtain ⟨-, -, hn'⟩ := enqueue_eq_ok hp
      rw [hn']
      exact ho.scheduler
  | @acquire b a n' id bound ok =>
    obtain ⟨-, -, -, -, hn'⟩ := acquire_eq_ok ok
    rw [hn']
    exact (onlyBuffers_markWritten n [(b, a)]).scheduler
  | release found => exact post_scheduler _ _
  | @look id a held => exact (onlyMemory_openHandle n a.handle).scheduler
  | @put id a block n' held ok =>
    obtain ⟨t, ht, -, huses⟩ :=
      hl.account.orderly.sound.accessors id a (held_eq_some_iff.mp held).1
    have hb := hl.account.faithful.bounds t (List.mem_of_getElem? ht) (a.handle, a.access)
      (by simp [huses])
    exact (Account.enterWrite_eq_some hb ok).1.scheduler
  | take ok => exact absurd rfl htake
  | @work i n' ok =>
    obtain ⟨w, -, rfl⟩ := runWork_eq_some_iff.mp ok
    rw [post_scheduler]
    exact (onlyMemory_run _ w.op).scheduler
  | @arrive i net' n' ok => exact absurd rfl (harrive i)

/-- The scheduler takes an event: some tasks are started, and some barriers are passed. -/
theorem takeEvent (hl : n.Ledger n₀ hist V log done [])
    (h : Node.takeEvent net n = some (net', n')) :
    ∃ s e events p, n.scheduler = some s ∧ n.events = e :: events ∧ s.react e = .ok p ∧
      Ledger { n with events, scheduler := some p.1 } n₀ hist V log done p.2.started ∧
      net' = (startAll net { n with events, scheduler := some p.1 } p.2.started).1 ∧
      n' = ((startAll net { n with events, scheduler := some p.1 } p.2.started).2).pass
        p.2.passed := by
  obtain ⟨s, e, events, p, hs, he, hok, ho, hnet, hn⟩ := hl.account.orderly.takeEvent h
  refine ⟨s, e, events, p, hs, he, hok, hl.same ⟨ho, ?_, hl.account.idle⟩
    (hl.marks.of_handles rfl rfl rfl), hnet, hn⟩
  exact hl.account.faithful.frame rfl rfl fun _ => Iff.rfl

/-- Barriers are passed. -/
theorem pass (hl : n.Ledger n₀ hist V log done todo)
    (passed : List (BarrierId × Option TaskError)) :
    (n.pass passed).Ledger n₀ hist V log done todo :=
  hl.same (hl.account.pass passed) (hl.marks.of_handles rfl rfl rfl)

end Ledger

end Node

end TiledTensor
