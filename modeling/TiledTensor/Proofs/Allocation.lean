import TiledTensor.Proofs.Custody
import TiledTensor.Proofs.Openings
import TiledTensor.Proofs.Queueing
import TiledTensor.Proofs.Unfailing

/-!
# Which buffers have memory

A buffer has memory once a computation on it is done, and a copy once it has been received, until it
is flushed (`Node.Allocated`).  So a rank has memory for whatever it reads, if it computes its own tiles
before it reads or sends them (`Node.Primed`): nobody who only reads ever has to allocate
(`Node.Allocated.opened_of_reads`).
-/

namespace TiledTensor

variable {α : Type}

/-! ## Programs that write before they read -/

namespace Entry

/-- What a call of rank `r` reads and does not write. -/
def reads (r : Rank) : Entry α → List HandleId
  | task _ op => (op.uses.filter fun u => !u.2.writes).map (·.1)
  | guard _ h a _ => if a.writes then [] else [h]
  | transfer h t => if r = t then [] else [h]
  | flush _ => []

/-- What a call computes. -/
def primes : Entry α → List HandleId
  | task _ op => (op.uses.filter fun u => u.2.writes).map (·.1)
  | guard .. | transfer .. | flush _ => []

/-- The call of rank `r` gives a buffer memory, once it is done. -/
def Fills (r : Rank) (h : HandleId) : Entry α → Prop
  | task _ op => ∃ a, (h, a) ∈ op.uses
  | transfer k t => k = h ∧ r = t
  | guard .. | flush _ => False

variable {e : Entry α} {id : TaskId} {block : List α} {r : Rank} {h : HandleId}

@[simp] theorem reads_put : (e.put id block).reads r = e.reads r := by
  rcases e.put_cases id block with hput | ⟨b, a, puts, rfl, hput⟩
  · rw [hput]
  · rw [hput]
    rfl

@[simp] theorem primes_put : (e.put id block).primes = e.primes := by
  rcases e.put_cases id block with hput | ⟨b, a, puts, rfl, hput⟩
  · rw [hput]
  · rw [hput]
    rfl

theorem fills_put : (e.put id block).Fills r h ↔ e.Fills r h := by
  rcases e.put_cases id block with hput | ⟨b, a, puts, rfl, hput⟩
  · rw [hput]
  · rw [hput]
    exact Iff.rfl

theorem mem_primes_iff : h ∈ e.primes ↔
    ∃ id op a, e = .task id op ∧ (h, a) ∈ op.uses ∧ a.writes = true := by
  constructor
  · intro hh
    cases e with
    | task id op =>
      obtain ⟨⟨k, a⟩, hu, rfl⟩ := List.mem_map.mp hh
      obtain ⟨hu, hw⟩ := List.mem_filter.mp hu
      exact ⟨id, op, a, rfl, hu, hw⟩
    | guard id b a puts => cases hh
    | transfer b t => cases hh
    | flush b => cases hh
  · rintro ⟨id, op, a, rfl, hu, hw⟩
    exact List.mem_map.mpr ⟨(h, a), List.mem_filter.mpr ⟨hu, hw⟩, rfl⟩

end Entry

namespace Node

instance (n : Node α) (h : HandleId) : Decidable (n.Opened h) :=
  match hm : (n.handle h).memory with
  | .absent => isFalse fun ho => ho hm
  | .present _ => isTrue fun ha => by cases hm.symm.trans ha
  | .poisoned => isTrue fun ha => by cases hm.symm.trans ha

/-- The rank computes each of its own buffers before it reads it or sends it, unless the buffer had
memory from the beginning. -/
def Primed (n₀ : Node α) (hist : List (Entry α)) : Prop :=
  ∀ k (hk : k < hist.length), ∀ h ∈ hist[k].reads n₀.rank, n₀.owner h = n₀.rank →
    n₀.Opened h ∨ ∃ e ∈ hist.take k, h ∈ e.primes

instance (n₀ : Node α) (hist : List (Entry α)) : Decidable (n₀.Primed hist) := by
  unfold Primed
  infer_instance

variable {n n' n₀ : Node α} {hist : List (Entry α)} {h : HandleId} {k : TaskId}

/-- What has been primed at the end was so before. -/
theorem Primed.of_record {a : Act α} (hp : n₀.Primed (a.record n hist)) : n₀.Primed hist := by
  have happend : ∀ e, n₀.Primed (hist ++ [e]) → n₀.Primed hist := by
    intro e hp k hk h hh ho
    have hlt : k < (hist ++ [e]).length := by
      rw [List.length_append]
      exact Nat.lt_add_right _ hk
    have := hp k hlt h (by rwa [List.getElem_append_left hk]) ho
    rwa [List.take_append_of_le_length (Nat.le_of_lt hk)] at this
  cases a with
  | call c => cases c <;> exact happend _ hp
  | acquire b c => exact happend _ hp
  | put id block =>
    have hp' : n₀.Primed (hist.map (Entry.put id block)) := hp
    intro k hk h hh ho
    have hlt : k < (hist.map (Entry.put id block)).length := by rwa [List.length_map]
    refine (hp' k hlt h (by rwa [List.getElem_map, Entry.reads_put]) ho).imp_right ?_
    rintro ⟨e, he, hprimes⟩
    rw [← List.map_take] at he
    obtain ⟨f, hf, rfl⟩ := List.mem_map.mp he
    exact ⟨f, hf, Entry.primes_put ▸ hprimes⟩
  | release id => exact hp
  | look id => exact hp
  | take => exact hp
  | work i => exact hp
  | arrive i => exact hp

/-- The duties of a rank stay, but for what the holders of accessors write. -/
theorem getElem?_duties_record (a : Act α) (hk : k < (n₀.duties hist).length) :
    ∃ f : Entry α → Entry α, (n₀.duties (a.record n hist))[k]? =
        ((n₀.duties hist)[k]?).map (fun d => (d.1, f d.2)) ∧
      ∀ e, f e = e ∨ ∃ id block, f e = e.put id block := by
  have happend : ∀ e, ∃ f : Entry α → Entry α, (n₀.duties (hist ++ [e]))[k]? =
        ((n₀.duties hist)[k]?).map (fun d => (d.1, f d.2)) ∧
      ∀ e, f e = e ∨ ∃ id block, f e = e.put id block := by
    intro e
    refine ⟨id, ?_, fun _ => Or.inl rfl⟩
    unfold duties at hk ⊢
    rw [dutiesFrom_append, List.getElem?_append_left hk]
    exact (Option.map_id_apply).symm
  have hsame : ∃ f : Entry α → Entry α, (n₀.duties hist)[k]? =
        ((n₀.duties hist)[k]?).map (fun d => (d.1, f d.2)) ∧
      ∀ e, f e = e ∨ ∃ id block, f e = e.put id block :=
    ⟨id, (Option.map_id_apply).symm, fun _ => Or.inl rfl⟩
  cases a with
  | call c => cases c <;> exact happend _
  | acquire b c => exact happend _
  | put id block =>
    refine ⟨Entry.put id block, ?_, fun _ => Or.inr ⟨id, block, rfl⟩⟩
    unfold Act.record
    dsimp only
    rw [duties_map_put, List.getElem?_map]
  | release id => exact hsame
  | look id => exact hsame
  | take => exact hsame
  | work i => exact hsame
  | arrive i => exact hsame

/-! ## Buffers that have been filled -/

theorem opened_post {e : Event α} : (n.post e).Opened h ↔ n.Opened h := by
  unfold Opened
  rw [handle_of_handles (post_handles n e)]

/-- A buffer has memory once it has been opened. -/
theorem opened_openHandle [Scalar α] (hb : h < n.handles.length) : (n.openHandle h).1.Opened h := by
  unfold Opened
  rw [openHandle_fst, handle_setHandle, if_pos ⟨rfl, hb⟩]
  exact Handle.access_memory_ne_absent _

/-- A computation frees no memory, and what it has opened has memory. -/
theorem opened_run [Scalar α] {op : Op α} {views : List (View α)}
    (hviews : (n.openAll op.operands).2 = some views)
    (hb : ∀ h a, (h, a) ∈ op.uses → h < n.handles.length) :
    ∀ h a, (h, a) ∈ op.uses → (n.run op).Opened h := by
  obtain ⟨-, hall⟩ := opened_openAll n op.operands hviews fun h a ha =>
    hb h a (Op.mem_uses_iff.mpr ha)
  have htouches : (n.openAll op.operands).1.Touches (fun _ => True) (n.run op) := by
    unfold Node.run
    generalize n.openAll op.operands = p at hviews
    obtain ⟨m, v⟩ := p
    obtain rfl : v = some views := hviews
    dsimp only
    split
    · exact Touches.refl.storeAll fun _ _ _ _ => trivial
    · exact Touches.refl.poisonAll fun _ _ _ => trivial
  intro h a ha
  have hspares : Spares True h (n.openAll op.operands).1 (n.run op) :=
    htouches.spares fun _ => trivial
  exact hspares.lasts (hall h a (Op.mem_uses_iff.mp ha))

/-- Memory is freed only by the scheduler, and where a receive ends without a copy. -/
theorem opened_of_act [Scalar α] {net net' : Cluster} {a : Act α}
    (h : n.act net a = some (net', n')) (htake : a ≠ .take)
    (harrive : ∀ i c, a = .arrive i → n.arrivals[i]? = some c → n'.Opened c.handle)
    {b : HandleId} (hb : n.Opened b) : n'.Opened b := by
  have hcall : a.happening.isCall = true → n'.Opened b := by
    intro hcall
    have hspares : Spares True b n n' :=
      (edits_of_undergo hcall (undergo_of_act h)).spares fun _ _ _ _ _ => trivial
    exact hspares.lasts hb
  cases acts_of_act h with
  | submit | transfer | flush | acquire | release | look | put => exact hcall rfl
  | take ok => exact absurd rfl htake
  | @work j n' ok =>
    obtain ⟨w, hw, rfl⟩ := runWork_eq_some_iff.mp ok
    have hrun : Touches (fun _ => True) { n with work := n.work.eraseIdx j }
        (Node.run { n with work := n.work.eraseIdx j } w.op) := touches_run _ fun _ _ _ => trivial
    have hspares : Spares True b _ _ := hrun.spares fun _ => trivial
    exact opened_post.mpr (hspares.lasts hb)
  | @arrive j net' n' ok =>
    obtain ⟨c, r, hc, -, hanswered, rfl, rfl⟩ := takeArrival_eq_some_iff.mp ok
    by_cases hcb : c.handle = b
    · exact hcb ▸ harrive j c rfl hc
    · have hspares : Spares True b { n with arrivals := n.arrivals.eraseIdx j } _ :=
        (finishes_of_finish _ c hanswered).spares_of_ne hcb
      exact hspares.lasts hb

/-- A buffer that has been filled has memory, unless it has been flushed since.  The rank's own
buffers keep what they have. -/
structure Allocated (n₀ n : Node α) (hist : List (Entry α)) (done : TaskId → Prop) : Prop where
  kept : ∀ h, n₀.owner h = n₀.rank → n₀.Opened h → n.Opened h
  filled : ∀ (k : TaskId) i e h, (n₀.duties hist)[k]? = some (i, e) → e.Fills n₀.rank h → done k →
    n.Opened h ∨ ∃ (j : TaskId) (i' : Nat), k < j ∧
      (n₀.duties hist)[j]? = some (i', .flush h) ∧ done j

variable {hist' : List (Entry α)} {V V' : Nat → Option (List α)} {log : List (Task α)}
  {done done' new : TaskId → Prop} {todo : List (Task α)} {net net' : Cluster} {t : Task α}
  {s : Scheduler α}

namespace Allocated

/-- Nothing has been asked of the rank yet. -/
theorem nil (n₀ : Node α) : n₀.Allocated n₀ [] fun _ => False :=
  ⟨fun _ _ h => h, fun _ _ _ _ _ _ hk => absurd hk not_false⟩

/-- No memory is freed, and what is done besides has filled its buffers. -/
theorem mono (hf : n₀.Allocated n hist done) (hg : Gains new done done')
    (hold : ∀ k, done k → ∃ f : Entry α → Entry α, (n₀.duties hist')[k]? =
        ((n₀.duties hist)[k]?).map (fun d => (d.1, f d.2)) ∧
      ∀ e, f e = e ∨ ∃ id block, f e = e.put id block)
    (hopen : ∀ h, n.Opened h → n'.Opened h)
    (hnew : ∀ (k : TaskId) i e h, new k → done' k → (n₀.duties hist')[k]? = some (i, e) →
      e.Fills n₀.rank h → n'.Opened h) : n₀.Allocated n' hist' done' := by
  refine ⟨fun h ho hh => hopen h (hf.kept h ho hh), ?_⟩
  intro k i e h hd hfills hk
  rcases hg.new k hk with hk | hnewk
  · obtain ⟨f, hrec, hput⟩ := hold k hk
    rw [hd] at hrec
    obtain ⟨⟨i', e'⟩, hd', heq⟩ := Option.map_eq_some_iff.mp hrec.symm
    obtain ⟨rfl, rfl⟩ := Prod.mk.inj heq
    have hfills' : e'.Fills n₀.rank h := by
      rcases hput e' with heq | ⟨id, block, heq⟩
      · exact heq ▸ hfills
      · exact Entry.fills_put.mp (heq ▸ hfills)
    refine (hf.filled k i' e' h hd' hfills' hk).imp (hopen h) ?_
    rintro ⟨j, m, hlt, hflush, hj⟩
    obtain ⟨g, hrec, hput⟩ := hold j hj
    rw [hflush, Option.map_some] at hrec
    have hsame : g (.flush h) = .flush h := by
      rcases hput (.flush h) with heq | ⟨id, block, heq⟩
      · exact heq
      · exact heq
    exact ⟨j, m, hlt, hsame ▸ hrec, hg.kept j hj⟩
  · exact Or.inl (hnew k i e h hnewk hk hd hfills)

/-- The history stays. -/
theorem same (hf : n₀.Allocated n hist done) (hg : Gains new done done')
    (hopen : ∀ h, n.Opened h → n'.Opened h)
    (hnew : ∀ (k : TaskId) i e h, new k → done' k → (n₀.duties hist)[k]? = some (i, e) →
      e.Fills n₀.rank h → n'.Opened h) : n₀.Allocated n' hist done' :=
  hf.mono hg (fun _ _ => ⟨id, (Option.map_id_apply).symm, fun _ => Or.inl rfl⟩) hopen hnew

variable [Scalar α]

/-- Whatever a computation was done on has memory, and so has what a receive has ended with. -/
theorem act (hf : n₀.Allocated n hist done) (hl : n.Ledger n₀ hist V log done todo)
    (hn : n₀.Intact n) (hu : n₀.Unfailing hist) {a : Act α} (h : n.act net a = some (net', n'))
    (htake : a ≠ .take) (hg : Gains (fun k => a.Ends n k) done done')
    (harrive : ∀ i c, a = .arrive i → n.arrivals[i]? = some c → n'.Opened c.handle) :
    n₀.Allocated n' (a.record n hist) done' := by
  have hold : ∀ k, done k → ∃ f : Entry α → Entry α, (n₀.duties (a.record n hist))[k]? =
        ((n₀.duties hist)[k]?).map (fun d => (d.1, f d.2)) ∧
      ∀ e, f e = e ∨ ∃ id block, f e = e.put id block :=
    fun k hk => getElem?_duties_record a (hl.length_eq ▸ hl.account.orderly.sound.lt k hk)
  refine hf.mono hg hold (fun b => opened_of_act h htake harrive) ?_
  cases acts_of_act h with
  | submit | transfer | flush | acquire | look | put =>
    exact fun _ _ _ _ hk => absurd hk not_false
  | @release id c found =>
    rintro k i e b rfl - hd hfills
    obtain ⟨i', puts, hd'⟩ := hl.duty_of_accessor found
    obtain ⟨-, rfl⟩ := Prod.mk.inj (Option.some.inj (hd.symm.trans hd'))
    exact absurd hfills not_false
  | take ok => exact absurd rfl htake
  | @work j n' ok =>
    obtain ⟨w, hw, rfl⟩ := runWork_eq_some_iff.mp ok
    obtain ⟨i, t, hd, -, -⟩ := hl.entry_of_work (List.mem_of_getElem? hw)
    have hmem := mem_of_getElem?_duties hd
    have hready : n₀.Intact ({ n with work := n.work.eraseIdx j } : Node α) := hn.of_handles rfl
    -- all buffers of the computation have been opened
    obtain ⟨-, views, hviews, -⟩ := hready.openAll
      (fun b c hb => hu.room _ hmem b ⟨c, Op.mem_uses_iff.mpr hb⟩) (hu.succeeds _ _ hmem).scratch
    have hall := opened_run hviews fun b c hb => hl.bound_of_use hd hb
    rintro k i' e b ⟨w', hw', rfl⟩ - hd' hfills
    obtain rfl : w = w' := Option.some.inj (hw.symm.trans hw')
    obtain ⟨-, rfl⟩ := Prod.mk.inj (Option.some.inj (hd'.symm.trans hd))
    obtain ⟨c, hc⟩ := hfills
    exact opened_post.mpr (hall b c hc)
  | @arrive j net' n' ok =>
    rintro k i e b ⟨c', hc', rfl⟩ - hd hfills
    obtain ⟨i', hd'⟩ := hl.duty_of_arrival (List.mem_of_getElem? hc')
    obtain ⟨-, rfl⟩ := Prod.mk.inj (Option.some.inj (hd.symm.trans hd'))
    exact hfills.1 ▸ harrive j c' rfl hc'

omit [Scalar α] in
/-- A task that is to free a copy is there for a flush. -/
theorem flush_of_evict {u : Task α} {i : Nat} {e : Entry α} (hdesc : n₀.Describes (i, e) u)
    (hjob : u.job = .evict h) : e = .flush h := by
  cases e with
  | task id op => cases hdesc.2.symm.trans hjob
  | guard id b a puts => cases hdesc.2.1.symm.trans hjob
  | transfer b r =>
    obtain ⟨tag, -, hj⟩ := hdesc
    unfold errand at hj
    split at hj <;> cases hj.symm.trans hjob
  | flush b =>
    cases hjob.symm.trans hdesc
    rfl

/-- What fills a buffer uses it. -/
theorem use_of_fills {i : Nat} {e : Entry α} (hfills : e.Fills n₀.rank h) :
    ∃ a, (h, a) ∈ (n₀.deed V (i, e)).uses := by
  cases e with
  | task id op => exact hfills
  | guard id b a puts => exact absurd hfills not_false
  | transfer b r =>
    obtain ⟨rfl, rfl⟩ := hfills
    exact ⟨.write, (deed_of_target (V := V) rfl).symm ▸ List.mem_cons_self⟩
  | flush b => exact absurd hfills not_false

/-- A computation or a receive that has just been started is not done. -/
theorem not_done_of_start (hl : n.Ledger n₀ hist V log done (t :: todo)) (hs : n.scheduler = some s)
    (hl' : (Node.start net n t).2.Ledger n₀ hist V' log done' todo) {i : Nat} {e : Entry α}
    (hd : (n₀.duties hist)[t.id]? = some (i, e)) (hfills : e.Fills n₀.rank h) : ¬done' t.id := by
  refine hl'.account.orderly.sound.undone t.id ?_
  cases e with
  | task id op =>
    obtain ⟨d, u, hd', -, hdesc, hplan⟩ := hl.next_duty hs
    obtain rfl := Option.some.inj (hd.symm.trans hd')
    obtain ⟨-, hjob⟩ := hdesc
    rcases hplan with rfl | ⟨hgrant, -⟩
    · unfold Node.start
      rw [hjob]
      exact Or.inl ⟨⟨t.id, op⟩, List.mem_append_right _ List.mem_cons_self, rfl⟩
    · cases hgrant.symm.trans hjob
  | guard id b a puts => exact absurd hfills not_false
  | transfer b r =>
    obtain ⟨rfl, rfl⟩ := hfills
    obtain ⟨tag, -, hstart, -⟩ := Node.Ledger.start_receive net hl hs hd
    rw [hstart]
    exact Or.inr (Or.inl ⟨_, List.mem_append_right _ List.mem_cons_self, rfl⟩)
  | flush b => exact absurd hfills not_false

/-- The eviction of a copy is reported as it is started. -/
theorem ended_of_evict (hs : n.scheduler = some s) (hjob : t.job = .evict h)
    (halive : (Node.start net n t).2.scheduler.isSome) :
    t.id ∈ (Node.start net n t).2.events.filterMap Event.ended? := by
  unfold Node.start at halive ⊢
  rw [hjob] at halive ⊢
  dsimp only at halive ⊢
  cases he : (n.handle h).evict with
  | error f =>
    rw [he] at halive
    dsimp only at halive
    rw [stop_scheduler] at halive
    cases halive
  | ok e =>
    have hrun : (n.setHandle h e).scheduler.isSome := by
      show n.scheduler.isSome
      rw [hs]
      rfl
    dsimp only
    rw [post_events _ _ hrun, List.filterMap_append]
    exact List.mem_append_right _ List.mem_cons_self

/-- Only the eviction of a copy frees memory as it is started, and what is started to fill a buffer
is not done yet. -/
theorem start (hf : n₀.Allocated n hist done) (hl : n.Ledger n₀ hist V log done (t :: todo))
    (hs : n.scheduler = some s) (halive : (Node.start net n t).2.scheduler.isSome)
    (hl' : (Node.start net n t).2.Ledger n₀ hist V' log done' todo)
    (hg : Gains (· = t.id) done done') : n₀.Allocated (Node.start net n t).2 hist done' := by
  obtain ⟨⟨i₀, e₀⟩, u, hd₀, hu, hdesc, hplan⟩ := hl.next_duty hs
  have hopen : ∀ b, t.job ≠ .evict b → n.Opened b → (Node.start net n t).2.Opened b := by
    intro b hb
    have hspares : Spares True b n (Node.start net n t).2 := (starts_of_start net n t).spares hb
    exact hspares.lasts
  by_cases hevict : ∃ h, t.job = .evict h
  swap
  · refine hf.same hg (fun h => hopen h fun hj => hevict ⟨h, hj⟩) ?_
    rintro k i e h rfl hk hd hfills
    exact absurd hk (not_done_of_start hl hs hl' hd hfills)
  obtain ⟨h, hjob⟩ := hevict
  obtain rfl : t = u := by
    rcases hplan with ht | ⟨-, ht⟩
    · exact ht
    · rw [ht] at hjob
      cases hjob
  obtain rfl := flush_of_evict hdesc hjob
  obtain ⟨-, hundone, -⟩ := hl.account.orderly.next hs
  obtain ⟨m, roster, hr⟩ := hl'.account.orderly.running _ (Option.some_get halive).symm
  have hdone : done' t.id := by
    refine (hr.reported t.id (ended_of_evict hs hjob halive)).resolve_right ?_
    · rintro ⟨⟨v, hv, hgrant⟩, -⟩
      obtain rfl := Option.some.inj (hu.symm.trans hv)
      cases hgrant.symm.trans hjob
  have hopen : ∀ b, b ≠ h → n.Opened b → (Node.start net n t).2.Opened b :=
    fun b hb => hopen b fun hj => hb (Job.evict.inj (hj.symm.trans hjob))
  constructor
  · intro b ho hb
    refine hopen b ?_ (hf.kept b ho hb)
    rintro rfl
    obtain ⟨-, hforeign, -⟩ := line_of_mem_duties (List.mem_of_getElem? hd₀) rfl
    exact hforeign ho.symm
  · intro k i e b hd hfills hk
    rcases hg.new k hk with hk | rfl
    · rcases hf.filled k i e b hd hfills hk with hb | ⟨j, i', hlt, hflush, hj⟩
      · by_cases hbh : b = h
        · subst hbh
          refine Or.inr ⟨t.id, i₀, ?_, hd₀, hdone⟩
          -- what comes after the flush has to wait for it
          refine Nat.lt_of_le_of_ne (Nat.le_of_not_lt fun hlt => hundone ?_) ?_
          · obtain ⟨a, ha⟩ := use_of_fills (V := V) (i := i) hfills
            exact hl.account.orderly.sound.closed t.id k
              (hl.precedes_of_uses (a := .write) hd₀ hd hlt List.mem_cons_self ha (Or.inl rfl)) hk
          · rintro rfl
            exact hundone hk
        · exact Or.inl (hopen b hbh hb)
      · exact Or.inr ⟨j, i', hlt, hflush, hg.kept j hj⟩
    · exact absurd hk (not_done_of_start hl hs hl' hd hfills)

theorem mem_reads_of_use {i : Nat} {e : Entry α} {a : Access}
    (hu : (h, a) ∈ (n₀.deed V (i, e)).uses) (ha : a.writes = false) : h ∈ e.reads n₀.rank := by
  have hwrite : ∀ {b}, (h, a) ∈ [(b, Access.write)] → False := by
    intro b hb
    obtain ⟨-, rfl⟩ := Prod.mk.inj (List.mem_singleton.mp hb)
    cases ha
  cases e with
  | task id op =>
    exact List.mem_map.mpr ⟨(h, a), List.mem_filter.mpr ⟨hu, by rw [ha]; rfl⟩, rfl⟩
  | guard id b c puts =>
    obtain ⟨rfl, rfl⟩ := Prod.mk.inj (List.mem_singleton.mp hu)
    simp [Entry.reads, ha]
  | transfer b t =>
    by_cases ht : n₀.rank = t
    · rw [deed_of_target ht] at hu
      exact absurd (hwrite hu) not_false
    · rw [deed_of_ne_target ht] at hu
      obtain ⟨rfl, -⟩ := Prod.mk.inj (List.mem_singleton.mp hu)
      simp [Entry.reads, ht]
  | flush b => exact absurd (hwrite hu) not_false

/-- What a rank reads without owning it is a copy that it holds. -/
theorem copyLine_of_use (hl : n.Ledger n₀ hist V log done todo) {i : Nat} {e : Entry α}
    (hd : (n₀.duties hist)[k]? = some (i, e)) {a : Access}
    (hu : (h, a) ∈ (n₀.deed V (i, e)).uses) (ha : a.writes = false) (ho : n₀.owner h ≠ n₀.rank) :
    ∃ j, copyLine (n₀.owner h) h n₀.rank ((lines hist).take i) = some j := by
  have hwrite : ∀ {b}, (h, a) ∈ [(b, Access.write)] → False := by
    intro b hb
    obtain ⟨-, rfl⟩ := Prod.mk.inj (List.mem_singleton.mp hb)
    cases ha
  have hallow := hl.allowed (i, e) (List.mem_of_getElem? hd)
  cases e with
  | task id op => exact Option.ne_none_iff_exists'.mp (hallow (h, a) hu ho).2
  | guard id b c puts => exact Option.ne_none_iff_exists'.mp (hallow (h, a) hu ho).2
  | transfer b t =>
    obtain ⟨-, hself⟩ := carried_of_duty hd
    by_cases ht : n₀.rank = t
    · rw [deed_of_target ht] at hu
      exact absurd (hwrite hu) not_false
    · rw [deed_of_ne_target ht] at hu
      obtain ⟨rfl, -⟩ := Prod.mk.inj (List.mem_singleton.mp hu)
      exact absurd (hself.resolve_left ht).symm ho
  | flush b => exact absurd (hwrite hu) not_false

/-- A task whose turn has come finds memory for what it reads of the rank's own: it has been computed
before. -/
theorem opened_of_primed (hf : n₀.Allocated n hist done) (hl : n.Ledger n₀ hist V log done todo)
    (hp : n₀.Primed hist) {i : Nat} {e : Entry α} (hd : (n₀.duties hist)[k]? = some (i, e))
    (hfirst : ∀ j, Precedes log j k → done j) {a : Access} (hu : (h, a) ∈ (n₀.deed V (i, e)).uses)
    (ha : a.writes = false) (ho : n₀.owner h = n₀.rank) : n.Opened h := by
  obtain ⟨before, after, hsplit, -, -, htake, -⟩ := exists_split hd
  have hlt : before.length < hist.length := by
    rw [hsplit, List.length_append, List.length_cons]
    omega
  have hget : hist[before.length] = e := by
    simp [hsplit]
  rcases hp before.length hlt h (hget ▸ mem_reads_of_use hu ha) ho with hh | ⟨f, hmem, hprimes⟩
  · exact hf.kept h ho hh
  obtain ⟨id, op, b, rfl, hb, hw⟩ := Entry.mem_primes_iff.mp hprimes
  rw [hsplit, List.take_left] at hmem
  obtain ⟨i', hin⟩ := mem_duties_of_own (n := n₀) hmem trivial
  rw [← htake] at hin
  obtain ⟨j, hj⟩ := List.getElem?_of_mem hin
  rw [List.getElem?_take] at hj
  split at hj
  · rename_i hjk
    have hdone := hfirst j (hl.precedes_of_uses hj hd hjk hb hu (Or.inl hw))
    rcases hf.filled j i' _ h hj ⟨b, hb⟩ hdone with hh | ⟨m, i'', -, hflush, -⟩
    · exact hh
    · obtain ⟨-, hforeign, -⟩ := line_of_mem_duties (List.mem_of_getElem? hflush) rfl
      exact absurd ho.symm hforeign
  · cases hj

/-- A task whose turn has come finds memory for the copies that it reads: they have been received, and
not been flushed since. -/
theorem opened_of_copied (hf : n₀.Allocated n hist done) (hl : n.Ledger n₀ hist V log done todo)
    {i : Nat} {e : Entry α} (hd : (n₀.duties hist)[k]? = some (i, e)) (hk : ¬done k)
    (hfirst : ∀ j, Precedes log j k → done j) {a : Access} (hu : (h, a) ∈ (n₀.deed V (i, e)).uses)
    (ha : a.writes = false) (ho : n₀.owner h ≠ n₀.rank) : n.Opened h := by
  obtain ⟨i₀, hi₀⟩ := copyLine_of_use hl hd hu ha ho
  obtain ⟨-, -, -, hnoflush⟩ := copyLine_eq_some hi₀
  have hcar := carried_of_copyLine hi₀
  obtain ⟨k', hk'⟩ := exists_duty_of_carried
    ((carried_iff_of_isPrefix (List.take_prefix i (lines hist))).mp hcar).2 (Or.inl rfl)
  have hline : i₀ < i := Nat.lt_of_lt_of_le hcar.lt (List.length_take_le _ _)
  have hlt : k' < k := by
    rcases Nat.lt_trichotomy k' k with hlt | rfl | hgt
    · exact hlt
    · obtain ⟨rfl, -⟩ := Prod.mk.inj (Option.some.inj (hk'.symm.trans hd))
      exact absurd hline (Nat.lt_irrefl _)
    · exact absurd (duties_ordered hd hk' hgt).1 (Nat.not_le_of_lt hline)
  have hfill : (h, Access.write) ∈ (n₀.deed V (i₀, .transfer h n₀.rank)).uses :=
    (deed_of_target (V := V) rfl).symm ▸ List.mem_cons_self
  have hdone := hfirst k' (hl.precedes_of_uses hk' hd hlt hfill hu (Or.inl rfl))
  rcases hf.filled k' i₀ _ h hk' ⟨rfl, rfl⟩ hdone with hh | ⟨j, i', hlt', hflush, hj⟩
  · exact hh
  exfalso
  -- a flush that is done cannot stand after the task, nor between the receive and the task
  rcases Nat.lt_trichotomy j k with hjk | rfl | hkj
  · have hafter : i₀ < i' := (duties_ordered hk' hflush hlt').2 (Option.some_ne_none _)
    have hbefore : i' < i := (duties_ordered hflush hd hjk).2 (Option.some_ne_none _)
    obtain ⟨hget, -⟩ := line_of_mem_duties (List.mem_of_getElem? hflush) rfl
    refine hnoflush i' hafter ?_
    rw [List.getElem?_take, if_pos hbefore]
    exact hget
  · exact hk hj
  · exact hk (hl.account.orderly.sound.closed k j
      (hl.precedes_of_uses (b := .write) hd hflush hkj hu List.mem_cons_self (Or.inr rfl)) hj)

/-- A task whose turn has come finds memory for what it only reads. -/
theorem opened_of_reads (hf : n₀.Allocated n hist done) (hl : n.Ledger n₀ hist V log done todo)
    (hp : n₀.Primed hist) {d : Nat × Entry α} (hd : (n₀.duties hist)[k]? = some d) (hk : ¬done k)
    (hfirst : ∀ j, Precedes log j k → done j) {a : Access} (hu : (h, a) ∈ (n₀.deed V d).uses)
    (ha : a.writes = false) : n.Opened h := by
  by_cases ho : n₀.owner h = n₀.rank
  · exact hf.opened_of_primed hl hp hd hfirst hu ha ho
  · exact hf.opened_of_copied hl hd hk hfirst hu ha ho

end Allocated

end Node

end TiledTensor
