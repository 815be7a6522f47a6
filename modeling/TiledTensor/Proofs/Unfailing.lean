import TiledTensor.Proofs.Delivery
import TiledTensor.Proofs.SubmissionOrder

/-!
# Ranks on which nothing fails

A buffer is lost when a computation faults while it writes it, or when there is no room for it.  If
no codelet faults on buffers of the sizes that the rank has, and there is room for what its calls
name, neither happens: every buffer stays intact, and since the scheduler stops only at a lost one,
it never does.

The codelets are asked to succeed on all views that fit the operands of their operation, not only on
those that they meet in one run.
-/

namespace TiledTensor

variable {α : Type}

/-! ## What can be relied upon -/

/-- The buffer is not lost, and has all of its elements if it has memory. -/
structure Handle.Intact (e : Handle α) : Prop where
  whole : e.memory ≠ .poisoned
  full : ∀ block, e.memory = .present block → block.length = e.count

/-- The view is what a codelet is given for an operand, if the buffers have these numbers of
elements. -/
def Operand.Fits (count : HandleId → Nat) : Operand → View α → Prop
  | .data h a, v =>
    ∃ block, block.length = count h ∧ v = if a.writes then .exclusive block else .shared block
  | .scratch bytes, v => v = .scratch bytes

/-- There is room for the scratch memory of the operation, and its codelet never faults. -/
structure Op.Succeeds (count : HandleId → Nat) (op : Op α) : Prop where
  scratch : ∀ bytes, .scratch bytes ∈ op.operands → allocatable ((bytes + 7) / 8 * 8) = true
  codelet : ∀ views, List.Forall₂ (Operand.Fits count) op.operands views →
    ∃ out, op.codelet views = .ok out

/-- The call makes its rank, or the other end of a transfer, open the buffer. -/
def Entry.Opens (h : HandleId) : Entry α → Prop
  | task _ op => ∃ a, (h, a) ∈ op.uses
  | guard _ j _ _ => j = h
  | transfer j _ => j = h
  | flush _ => False

namespace Node

variable [Scalar α]

/-- Nothing that is asked of the rank can fail. -/
structure Unfailing (n₀ : Node α) (hist : List (Entry α)) : Prop where
  intact : ∀ h, (n₀.handle h).Intact
  room : ∀ e ∈ hist, ∀ h, e.Opens h → allocatable ((n₀.handle h).count * Scalar.size α) = true
  succeeds : ∀ id op, .task id op ∈ hist → op.Succeeds fun h => (n₀.handle h).count

end Node

/-! ## One buffer -/

namespace Handle

variable {e e' : Handle α}

theorem Intact.congr (he : e.Intact) (hm : e'.memory = e.memory) (hc : e'.count = e.count) :
    e'.Intact := by
  refine ⟨hm ▸ he.whole, ?_⟩
  intro block hb
  rw [hc]
  exact he.full block (hm ▸ hb)

theorem intact_of_length {block : List α} (hb : block.length = e.count) :
    ({ e with memory := .present block } : Handle α).Intact := by
  refine ⟨by simp, ?_⟩
  intro block' h
  obtain rfl := Memory.present.inj h
  exact hb

/-- A buffer keeps its length when it is written. -/
theorem Intact.store (he : e.Intact) (block : List α) : (e.store block).Intact := by
  unfold Handle.store
  split
  · rename_i old hold
    exact intact_of_length ((length_overlay block old).trans (he.full old hold))
  · exact he

/-- A buffer that is not lost can be freed. -/
theorem Intact.evict (he : e.Intact) :
    e.evict = .ok { e with memory := .absent } ∧
      ({ e with memory := .absent } : Handle α).Intact := by
  refine ⟨?_, by simp, by simp⟩
  unfold Handle.evict
  split
  · rename_i hm
    exact absurd hm he.whole
  · rfl

/-- A buffer that is not lost can be opened if there is room for it. -/
theorem Intact.access [Scalar α] (he : e.Intact)
    (hroom : allocatable (e.count * Scalar.size α) = true) :
    ∃ block, block.length = e.count ∧ e.access = ({ e with memory := .present block }, .ok block) := by
  unfold Handle.access
  split
  · rename_i hm
    exact absurd hm he.whole
  · rename_i block hm
    exact ⟨block, he.full block hm, by rw [← hm]⟩
  · exact ⟨_, List.length_replicate, if_pos hroom⟩

end Handle

/-! ## The buffers of a rank -/

namespace Node

variable {n n' n₀ : Node α} {h : HandleId}

/-- No buffer of the rank is lost, and all are as long as they were in the beginning. -/
structure Intact (n₀ n : Node α) : Prop where
  buffers : ∀ h, (n.handle h).Intact
  count : ∀ h, (n.handle h).count = (n₀.handle h).count

namespace Intact

theorem of_handles (hn : n₀.Intact n) (hh : n'.handles = n.handles) : n₀.Intact n' := by
  have hsame : n'.handle = n.handle := by
    funext h
    unfold handle
    rw [hh]
  exact ⟨fun h => hsame ▸ hn.buffers h, fun h => hsame ▸ hn.count h⟩

theorem setHandle {e : Handle α} (hn : n₀.Intact n) (he : e.Intact)
    (hc : e.count = (n.handle h).count) : n₀.Intact (n.setHandle h e) := by
  refine ⟨fun j => ?_, fun j => ?_⟩
  · rw [handle_setHandle]
    split
    · exact he
    · exact hn.buffers j
  · rw [handle_setHandle]
    split
    · rename_i hj
      rw [hc, hn.count, hj.1]
    · exact hn.count j

/-- What is noted on a buffer is replaced. -/
theorem relabel {e : Handle α} (hn : n₀.Intact n) (hm : e.memory = (n.handle h).memory)
    (hc : e.count = (n.handle h).count) : n₀.Intact (n.setHandle h e) :=
  hn.setHandle ((hn.buffers h).congr hm hc) hc

theorem post (hn : n₀.Intact n) (e : Event α) : n₀.Intact (n.post e) :=
  hn.of_handles (post_handles n e)

theorem store (hn : n₀.Intact n) (h : HandleId) (block : List α) :
    n₀.Intact (n.setHandle h ((n.handle h).store block)) := by
  refine hn.setHandle ((hn.buffers h).store block) ?_
  unfold Handle.store
  split <;> rfl

theorem storeAll (hn : n₀.Intact n) (operands : List Operand) (views : List (View α)) :
    n₀.Intact (n.storeAll operands views) := by
  induction operands generalizing n views with
  | nil =>
    unfold Node.storeAll
    exact hn
  | cons o operands ih =>
    cases views with
    | nil => cases o <;> exact hn
    | cons v views =>
      cases o with
      | scratch bytes => exact ih hn views
      | data h a =>
        unfold Node.storeAll
        dsimp only
        split
        · split
          · exact ih (hn.store h _) views
          · exact ih hn views
        · exact ih hn views

theorem markWritten (hn : n₀.Intact n) (uses : List (HandleId × Access)) :
    n₀.Intact (n.markWritten uses) := by
  induction uses generalizing n with
  | nil => exact hn
  | cons u uses ih =>
    rw [Node.markWritten, List.foldl_cons]
    split
    · exact ih (hn.relabel rfl rfl)
    · exact ih hn

theorem enqueue (hn : n₀.Intact n) {name : String} {uses : List (HandleId × Access)} {job : Job α}
    {id : TaskId} (h : n.enqueue name uses job = (n', .ok id)) : n₀.Intact n' := by
  obtain ⟨-, -, rfl⟩ := enqueue_eq_ok h
  exact hn.of_handles rfl

/-! ### Calls -/

theorem transfer (hn : n₀.Intact n) {t : Rank} (hok : n.transfer h t = (n', .ok ())) :
    n₀.Intact n' := by
  have hsame : (n, (.ok () : Except TaskError Unit)) = (n', .ok ()) → n₀.Intact n' := by
    intro heq
    exact (Prod.mk.inj heq).1 ▸ hn
  unfold Node.transfer at hok
  dsimp only at hok
  split at hok
  · cases hok
  split at hok
  · exact hsame hok
  split at hok
  · cases hok
  split at hok
  · split at hok
    · exact hsame hok
    · obtain ⟨id, hp⟩ := exists_of_map_eq_ok hok
      exact (hn.relabel (e := (n.handle h).markCached) rfl rfl).enqueue hp
  split at hok
  · unfold Handle.markSent at hok
    by_cases hmem : t ∈ (n.handle h).sent
    · rw [if_pos hmem] at hok
      exact hsame hok
    · rw [if_neg hmem] at hok
      obtain ⟨id, hp⟩ := exists_of_map_eq_ok hok
      exact (hn.relabel (e := { n.handle h with sent := (n.handle h).sent ++ [t] }) rfl rfl).enqueue hp
  · exact hsame hok

/-- What a flush leaves of a buffer. -/
theorem flushed (hn : n₀.Intact n) (h : HandleId) (r : Rank) :
    n₀.Intact (n.setHandle h ((n.handle h).flush r).1) := by
  refine hn.relabel ?_ ?_ <;> (unfold Handle.flush; split <;> rfl)

theorem flush (hn : n₀.Intact n) (hok : n.flush h = (n', .ok ())) : n₀.Intact n' := by
  have hset := hn.flushed h n.rank
  unfold Node.flush at hok
  generalize (n.handle h).flush n.rank = p at hok hset
  obtain ⟨e, held⟩ := p
  cases held with
  | false => exact (Prod.mk.inj hok).1 ▸ hset
  | true =>
    obtain ⟨id, hp⟩ := exists_of_map_eq_ok hok
    exact hset.enqueue hp

variable [Scalar α]

/-! ### Opening -/

theorem openHandle (hn : n₀.Intact n)
    (hroom : allocatable ((n₀.handle h).count * Scalar.size α) = true) :
    n₀.Intact (n.openHandle h).1 ∧
      ∃ block, block.length = (n₀.handle h).count ∧ (n.openHandle h).2 = .ok block := by
  obtain ⟨block, hlen, hopen⟩ := (hn.buffers h).access (hn.count h ▸ hroom)
  rw [openHandle_fst, openHandle_snd, hopen]
  exact ⟨hn.setHandle (Handle.intact_of_length hlen) rfl, block, hlen.trans (hn.count h), rfl⟩

/-- All buffers of an operation can be opened, and its codelet is given views that fit. -/
theorem openAll (hn : n₀.Intact n) {operands : List Operand}
    (hroom : ∀ h a, .data h a ∈ operands →
      allocatable ((n₀.handle h).count * Scalar.size α) = true)
    (hscratch : ∀ bytes, .scratch bytes ∈ operands → allocatable ((bytes + 7) / 8 * 8) = true) :
    n₀.Intact (n.openAll operands).1 ∧ ∃ views, (n.openAll operands).2 = some views ∧
      List.Forall₂ (Operand.Fits fun h => (n₀.handle h).count) operands views := by
  induction operands generalizing n with
  | nil => exact ⟨hn, [], rfl, .nil⟩
  | cons o operands ih =>
    have hrest := fun {m : Node α} (hm : n₀.Intact m) =>
      ih hm (fun h a ha => hroom h a (List.mem_cons_of_mem _ ha)) fun bytes hb =>
        hscratch bytes (List.mem_cons_of_mem _ hb)
    cases o with
    | scratch bytes =>
      obtain ⟨hn', views, hviews, hfits⟩ := hrest hn
      unfold Node.openAll
      rw [if_pos (hscratch bytes List.mem_cons_self)]
      exact ⟨hn', _, congrArg (Option.map _) hviews, .cons rfl hfits⟩
    | data h a =>
      obtain ⟨hm, block, hlen, hblock⟩ := hn.openHandle (hroom h a List.mem_cons_self)
      obtain ⟨hn', views, hviews, hfits⟩ := hrest hm
      unfold Node.openAll
      generalize n.openHandle h = p at hblock hn' hviews
      obtain ⟨p, r⟩ := p
      obtain rfl : r = .ok block := hblock
      dsimp only at hn' hviews ⊢
      generalize p.openAll operands = q at hn' hviews
      obtain ⟨q, r⟩ := q
      obtain rfl : r = some views := hviews
      exact ⟨hn', _, rfl, .cons ⟨block, hlen, rfl⟩ hfits⟩

/-- A computation that succeeds loses no buffer. -/
theorem run (hn : n₀.Intact n) {op : Op α}
    (hroom : ∀ h a, (h, a) ∈ op.uses → allocatable ((n₀.handle h).count * Scalar.size α) = true)
    (hop : op.Succeeds fun h => (n₀.handle h).count) : n₀.Intact (n.run op) := by
  obtain ⟨hn', views, hviews, hfits⟩ := hn.openAll
    (fun h a ha => hroom h a (Op.mem_uses_iff.mpr ha)) hop.scratch
  obtain ⟨out, hout⟩ := hop.codelet views hfits
  unfold Node.run
  generalize n.openAll op.operands = p at hn' hviews
  obtain ⟨p, r⟩ := p
  obtain rfl : r = some views := hviews
  dsimp only at hn' ⊢
  rw [hout]
  exact hn'.storeAll op.operands out

/-! ### Tasks that are started -/

/-- The scheduler goes on when it starts a task. -/
theorem start (hn : n₀.Intact n) (net : Cluster) {t : Task α}
    (hroom : ∀ h dst tag, t.job = .send h dst tag →
      allocatable ((n₀.handle h).count * Scalar.size α) = true) :
    n₀.Intact (Node.start net n t).2 ∧
      ((Node.start net n t).2.scheduler.isSome ↔ n.scheduler.isSome) := by
  have hposted : ∀ m : Node α, n₀.Intact m → m.scheduler = n.scheduler → ∀ e,
      n₀.Intact (m.post e) ∧ ((m.post e).scheduler.isSome ↔ n.scheduler.isSome) := by
    intro m hm hs e
    rw [post_scheduler, hs]
    exact ⟨hm.post e, Iff.rfl⟩
  unfold Node.start
  split
  · exact ⟨hn.of_handles rfl, Iff.rfl⟩
  · rename_i h dst tag hjob
    obtain ⟨hm, block, -, hblock⟩ := hn.openHandle (hroom h dst tag hjob)
    have hs := (onlyMemory_openHandle n h).scheduler
    generalize n.openHandle h = p at hm hblock hs
    obtain ⟨p, r⟩ := p
    obtain rfl : r = .ok block := hblock
    dsimp only at hm hs ⊢
    split
    · exact hposted p hm hs _
    · rw [post_scheduler]
      refine ⟨(hm.of_handles rfl : n₀.Intact (p.note _)).post _, ?_⟩
      unfold Node.note
      rw [Option.isSome_map, hs]
  · exact ⟨hn.of_handles rfl, Iff.rfl⟩
  · rename_i h hjob
    obtain ⟨he, hfreed⟩ := (hn.buffers h).evict
    rw [he]
    exact hposted _ (hn.setHandle hfreed rfl) rfl _
  · split
    · exact ⟨hn.of_handles rfl, Iff.rfl⟩
    · exact hposted n hn rfl _
  · exact hposted n hn rfl _
  · exact hposted n hn rfl _

/-- The scheduler goes on when it starts several tasks. -/
theorem startAll (hn : n₀.Intact n) (net : Cluster) {todo : List (Task α)}
    (hroom : ∀ t ∈ todo, ∀ h dst tag, t.job = .send h dst tag →
      allocatable ((n₀.handle h).count * Scalar.size α) = true)
    (hs : n.scheduler.isSome) :
    n₀.Intact (Node.startAll net n todo).2 ∧ (Node.startAll net n todo).2.scheduler.isSome := by
  induction todo generalizing net n with
  | nil => exact ⟨hn, hs⟩
  | cons t todo ih =>
    obtain ⟨hn', hs'⟩ := hn.start net (hroom t List.mem_cons_self)
    unfold Node.startAll
    dsimp only
    rw [if_pos (hs'.mpr hs)]
    exact ih hn' _ (fun u hu => hroom u (List.mem_cons_of_mem _ hu)) (hs'.mpr hs)

/-! ### Receives -/

omit [Scalar α] in
theorem abandon_scheduler (n : Node α) (a : Arrival) (e : TaskError) :
    (n.abandon a e).scheduler = n.scheduler := by
  unfold abandon
  dsimp only
  split
  · exact post_scheduler _ _
  · rfl

theorem finish_scheduler (n : Node α) (a : Arrival) (c : Receipt) :
    (n.finish a c).scheduler = n.scheduler := by
  have hopen := (onlyMemory_openHandle n a.handle).scheduler
  unfold Node.finish accept
  cases c with
  | waiting => rfl
  | refused e => exact abandon_scheduler n a _
  | delivered payload =>
    generalize n.openHandle a.handle = p at hopen
    obtain ⟨p, r⟩ := p
    cases r with
    | error f => exact hopen
    | ok block =>
      dsimp only at hopen ⊢
      by_cases hsize : block.length * Scalar.size α = payload.length
      · rw [if_pos hsize]
        exact (post_scheduler _ _).trans hopen
      · rw [if_neg hsize]
        exact (abandon_scheduler p a _).trans hopen

/-- A receive that ends loses no buffer. -/
theorem finish (hn : n₀.Intact n) {a : Arrival}
    (hroom : allocatable ((n₀.handle a.handle).count * Scalar.size α) = true) (c : Receipt) :
    n₀.Intact (n.finish a c) := by
  have habandon : ∀ m : Node α, n₀.Intact m → ∀ e, n₀.Intact (m.abandon a e) := by
    intro m hm e
    have hcopy : ((m.handle a.handle).flush m.rank).1.memory = (m.handle a.handle).memory ∧
        ((m.handle a.handle).flush m.rank).1.count = (m.handle a.handle).count := by
      unfold Handle.flush
      split <;> exact ⟨rfl, rfl⟩
    obtain ⟨hfree, hfreed⟩ := ((hm.buffers a.handle).congr hcopy.1 hcopy.2).evict
    unfold abandon
    dsimp only
    rw [hfree]
    exact (hm.setHandle hfreed hcopy.2).post _
  cases c with
  | waiting => exact hn
  | refused e => exact habandon n hn _
  | delivered payload =>
    obtain ⟨hm, block, -, hblock⟩ := hn.openHandle hroom
    unfold Node.finish accept
    generalize n.openHandle a.handle = p at hm hblock
    obtain ⟨p, r⟩ := p
    obtain rfl : r = .ok block := hblock
    dsimp only at hm ⊢
    by_cases hsize : block.length * Scalar.size α = payload.length
    · rw [if_pos hsize]
      exact (hm.store a.handle _).post _
    · rw [if_neg hsize]
      exact habandon p hm _

end Intact

/-! ## What happens on a rank -/

variable {hist : List (Entry α)}

theorem mem_of_getElem?_duties {k : TaskId} {i : Nat} {e : Entry α}
    (hd : (n₀.duties hist)[k]? = some (i, e)) : e ∈ hist := by
  obtain ⟨before, after, hsplit, -⟩ := exists_split hd
  rw [hsplit]
  exact List.mem_append_right _ List.mem_cons_self

variable [Scalar α] {net net' : Cluster} {V : Nat → Option (List α)} {log : List (Task α)}
  {done : TaskId → Prop} {todo : List (Task α)}

/-- What nothing can fail for later has not failed before. -/
theorem Unfailing.of_record {a : Act α} (hu : n₀.Unfailing (a.record n hist)) :
    n₀.Unfailing hist := by
  have hmono : ∀ e ∈ hist, ∃ e' ∈ a.record n hist, (∀ h, e.Opens h → e'.Opens h) ∧
      ∀ id op, e = .task id op → e' = .task id op := by
    intro e he
    have hsame : e ∈ a.record n hist → ∃ e' ∈ a.record n hist, (∀ h, e.Opens h → e'.Opens h) ∧
        ∀ id op, e = .task id op → e' = .task id op :=
      fun hmem => ⟨e, hmem, fun _ h => h, fun _ _ h => h⟩
    cases a with
    | put id block =>
      refine ⟨e.put id block, List.mem_map_of_mem he, ?_, ?_⟩
      · intro h hopens
        rcases e.put_cases id block with hput | ⟨b, c, puts, rfl, hput⟩
        · exact hput.symm ▸ hopens
        · exact hput.symm ▸ hopens
      · rintro k op rfl
        rfl
    | call c =>
      cases c with
      | submit op => exact hsame (List.mem_append_left _ he)
      | transfer b target => exact hsame (List.mem_append_left _ he)
      | flush b => exact hsame (List.mem_append_left _ he)
    | acquire b c => exact hsame (List.mem_append_left _ he)
    | release id => exact hsame he
    | look id => exact hsame he
    | take => exact hsame he
    | work i => exact hsame he
    | arrive i => exact hsame he
  refine ⟨hu.intact, ?_, ?_⟩
  · intro e he h hopens
    obtain ⟨e', he', hopens', -⟩ := hmono e he
    exact hu.room e' he' h (hopens' h hopens)
  · intro id op he
    obtain ⟨e', he', -, htask⟩ := hmono _ he
    exact hu.succeeds id op (htask id op rfl ▸ he')

/-- What is sent was to be transferred. -/
theorem Ledger.transfer_of_todo (hl : n.Ledger n₀ hist V log done todo) {s : Scheduler α}
    (hs : n.scheduler = some s) {t : Task α} (ht : t ∈ todo) {dst : Rank} {tag : Tag}
    (hjob : t.job = .send h dst tag) : ∃ r, .transfer h r ∈ hist := by
  obtain ⟨m, roster, hr⟩ := hl.account.orderly.running s hs
  obtain ⟨-, -, -, -, u, hu, hplan⟩ := hr.starting t ht
  obtain ⟨⟨i, e⟩, hd, hdesc⟩ := hl.exists_duty hu
  have hmem := mem_of_getElem?_duties hd
  rcases hplan with rfl | ⟨-, -, rfl⟩
  · cases e with
    | task id op => exact absurd (hjob.symm.trans hdesc.2) (by simp)
    | guard id b a puts => exact absurd (hjob.symm.trans hdesc.2.1) (by simp)
    | flush b => exact absurd (hjob.symm.trans hdesc) (by simp)
    | transfer b r =>
      obtain ⟨tag', -, hj⟩ := hdesc
      unfold errand at hj
      split at hj
      · exact absurd (hjob.symm.trans hj) (by simp)
      · obtain ⟨rfl, -⟩ := Job.send.inj (hjob.symm.trans hj)
        exact ⟨r, hmem⟩
  · cases hjob

/-- Nothing that happens on the rank between two events loses a buffer or stops its scheduler. -/
theorem Intact.act_of_ne_take (hn : n₀.Intact n) (hs : n.scheduler.isSome) (hu : n₀.Unfailing hist)
    (hl : n.Ledger n₀ hist V log done todo) {a : Act α} (h : n.Acts net a net' n')
    (htake : a ≠ .take) : n₀.Intact n' ∧ n'.scheduler.isSome := by
  have hkeep : (∀ i, a ≠ .arrive i) → n₀.Intact n' → n₀.Intact n' ∧ n'.scheduler.isSome := by
    intro harrive hn'
    rw [hl.scheduler_of_act h htake harrive]
    exact ⟨hn', hs⟩
  have hguard : ∀ {id b}, n.held id = some b →
      allocatable ((n₀.handle b.handle).count * Scalar.size α) = true := by
    intro id b hheld
    obtain ⟨i, puts, hd⟩ := hl.duty_of_accessor (held_eq_some_iff.mp hheld).1
    exact hu.room _ (mem_of_getElem?_duties hd) _ rfl
  cases h with
  | submit bounds ok =>
    obtain ⟨id, hp⟩ := submit_eq_ok ok
    exact hkeep (by simp) ((hn.markWritten _).enqueue hp)
  | transfer bound ok => exact hkeep (by simp) (hn.transfer ok)
  | flush bound ok => exact hkeep (by simp) (hn.flush ok)
  | @acquire b a n' id bound ok =>
    obtain ⟨-, -, -, -, rfl⟩ := acquire_eq_ok ok
    exact hkeep (by simp) ((hn.markWritten [(b, a)]).of_handles rfl)
  | release found => exact hkeep (by simp) (hn.of_handles (post_handles _ _))
  | look held => exact hkeep (by simp) (hn.openHandle (hguard held)).1
  | @put id a block n' held ok =>
    refine hkeep (by simp) ?_
    obtain ⟨hm, old, -, hold⟩ := hn.openHandle (hguard held)
    unfold enterWrite enter at ok
    generalize n.openHandle a.handle = p at ok hm hold
    obtain ⟨p, r⟩ := p
    obtain rfl : r = .ok old := hold
    dsimp only at ok hm
    unfold write at ok
    by_cases hw : a.access.writes = true
    · rw [if_pos hw] at ok
      obtain rfl := Option.some.inj ok
      exact hm.store a.handle block
    · rw [if_neg hw] at ok
      cases ok
  | take ok => exact absurd rfl htake
  | @work i n' ok =>
    refine hkeep (by simp) ?_
    obtain ⟨w, hw, rfl⟩ := runWork_eq_some_iff.mp ok
    obtain ⟨j, -, hd, -⟩ := hl.entry_of_work (List.mem_of_getElem? hw)
    have hmem := mem_of_getElem?_duties hd
    have hrest : n₀.Intact ({ n with work := n.work.eraseIdx i } : Node α) := hn.of_handles rfl
    exact (hrest.run (fun b a hb => hu.room _ hmem b ⟨a, hb⟩) (hu.succeeds _ _ hmem)).post _
  | @arrive i net' n' ok =>
    obtain ⟨a, c, ha, -, -, -, rfl⟩ := takeArrival_eq_some_iff.mp ok
    obtain ⟨j, hd⟩ := hl.duty_of_arrival (List.mem_of_getElem? ha)
    have hrest : n₀.Intact ({ n with arrivals := n.arrivals.eraseIdx i } : Node α) :=
      hn.of_handles rfl
    refine ⟨hrest.finish (hu.room _ (mem_of_getElem?_duties hd) _ rfl) c, ?_⟩
    rw [finish_scheduler]
    exact hs

/-- Nothing that happens on the rank loses a buffer or stops its scheduler. -/
theorem Intact.act (hn : n₀.Intact n) (hs : n.scheduler.isSome) (hu : n₀.Unfailing hist)
    (hl : n.Ledger n₀ hist V log done []) {a : Act α} (h : n.Acts net a net' n') :
    n₀.Intact n' ∧ n'.scheduler.isSome := by
  by_cases htake : a = .take
  · subst htake
    cases h with
    | take ok =>
      obtain ⟨s, e, events, p, hsome, -, -, hl', rfl, rfl⟩ := hl.takeEvent ok
      have htaken : n₀.Intact ({ n with events := events, scheduler := some p.1 } : Node α) :=
        hn.of_handles rfl
      obtain ⟨hn', hs'⟩ := htaken.startAll net (fun t ht b dst tag hjob => by
        obtain ⟨r, hmem⟩ := hl'.transfer_of_todo rfl ht hjob
        exact hu.room _ hmem b rfl) rfl
      exact ⟨hn'.of_handles rfl, hs'⟩
  · exact hn.act_of_ne_take hs hu hl h htake

/-- A rank that has no memory yet but room for all of its buffers can fail only where an operation
does. -/
theorem unfailing_of_absent {hist : List (Entry α)} (hh : ∀ e ∈ n₀.handles, e.memory = .absent ∧
      allocatable (e.count * Scalar.size α) = true)
    (hop : ∀ id op, .task id op ∈ hist → op.Succeeds fun h => (n₀.handle h).count) :
    n₀.Unfailing hist := by
  have hall : ∀ h, (n₀.handle h).memory = .absent ∧
      allocatable ((n₀.handle h).count * Scalar.size α) = true := by
    intro h
    unfold Node.handle
    rw [List.getD_eq_getElem?_getD]
    cases hget : n₀.handles[h]? with
    | none =>
      refine ⟨rfl, ?_⟩
      show allocatable (0 * Scalar.size α) = true
      rw [Nat.zero_mul]
      decide
    | some e => exact hh e (List.mem_of_getElem? hget)
  refine ⟨fun h => ⟨?_, ?_⟩, fun _ _ h _ => (hall h).2, hop⟩
  · simp [(hall h).1]
  · simp [(hall h).1]

end Node

end TiledTensor
