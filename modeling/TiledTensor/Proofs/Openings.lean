import TiledTensor.Proofs.Admission
import TiledTensor.Proofs.Starts
import TiledTensor.Proofs.Stations

/-!
# Buffers that are being opened

Everything that is being opened belongs to a task that has been started and is not done yet
(`Station.Placed`), and two such tasks do not conflict (`Node.Orderly.apart`).  So nobody has to wait
for a lock but behind somebody who asks for the lock of a buffer that he will not write: the lock for
allocating it, on behalf of a reader (`Station.Steady.free`).
-/

namespace TiledTensor

variable {α : Type}

namespace Opening

variable {o : Opening} {h : HandleId} {a : Access} {i : Nat}

/-- The accesses that the operands are opened for. -/
def uses (o : Opening) : List (HandleId × Access) := o.operands.filterMap Operand.use?

theorem mem_uses_of_getElem? (ho : o.operands[i]? = some (.data h a)) : (h, a) ∈ o.uses :=
  List.mem_filterMap.mpr ⟨_, List.mem_of_getElem? ho, rfl⟩

/-- The locks that are held are those of the operands that are open. -/
theorem mem_held_iff : (h, a) ∈ o.held ↔ ∃ i < o.opened, o.operands[i]? = some (.data h a) := by
  unfold held
  rw [List.mem_filterMap]
  constructor
  · rintro ⟨x, hx, huse⟩
    obtain ⟨i, hi⟩ := List.getElem?_of_mem hx
    rw [List.getElem?_take] at hi
    split at hi
    · rename_i hlt
      cases x with
      | scratch bytes => cases huse
      | data k b =>
        cases huse
        exact ⟨i, hlt, hi⟩
    · cases hi
  · rintro ⟨i, hlt, hi⟩
    have htake : (o.operands.take o.opened)[i]? = some (.data h a) := by
      rw [List.getElem?_take, if_pos hlt, hi]
    exact ⟨_, List.mem_of_getElem? htake, rfl⟩

theorem mem_uses_of_held (hu : (h, a) ∈ o.held) : (h, a) ∈ o.uses := by
  obtain ⟨i, -, hi⟩ := mem_held_iff.mp hu
  exact mem_uses_of_getElem? hi

/-- A lock is asked for on behalf of the next operand.  A reader asks for the lock for writing only
to allocate. -/
theorem next_of_asks {w : Bool} (ho : o.asks = some (h, w)) :
    ∃ a, o.operands[o.opened]? = some (.data h a) ∧
      (w = true → o.phase = .allocate ∨ a.writes = true) := by
  unfold asks at ho
  split at ho
  · rename_i hnext _
    cases ho
    exact ⟨_, hnext, fun h => absurd h Bool.false_ne_true⟩
  · rename_i hnext hphase
    cases ho
    exact ⟨_, hnext, fun _ => Or.inl hphase⟩
  · rename_i hnext _
    cases ho
    exact ⟨_, hnext, Or.inr⟩
  · cases ho

section

variable [Scalar α] {n : Node α}

/-- What is next to open a buffer, and what comes of it. -/
inductive Steps (n : Node α) (o : Opening) : Node α → Opening → Prop
  | full (next : o.operands[o.opened]? = none) : Steps n o n o
  | scratch {bytes} (next : o.operands[o.opened]? = some (.scratch bytes))
      (room : allocatable ((bytes + 7) / 8 * 8) = true) : Steps n o n o.advance
  | overflow {bytes} (next : o.operands[o.opened]? = some (.scratch bytes))
      (room : ¬allocatable ((bytes + 7) / 8 * 8) = true) : Steps n o n { o with phase := .failed }
  | misses {k b} (next : o.operands[o.opened]? = some (.data k b)) (phase : o.phase = .look)
      (memory : (n.handle k).memory = .absent) : Steps n o n { o with phase := .missed }
  | finds {k b block} (next : o.operands[o.opened]? = some (.data k b)) (phase : o.phase = .look)
      (memory : (n.handle k).memory = .present block) : Steps n o n { o with phase := .enter }
  | turns {k b} (next : o.operands[o.opened]? = some (.data k b)) (phase : o.phase = .missed) :
      Steps n o n { o with phase := .allocate }
  | allocates {k b block} (next : o.operands[o.opened]? = some (.data k b))
      (phase : o.phase = .allocate) (ok : (n.openHandle k).2 = .ok block) :
      Steps n o (n.openHandle k).1 { o with phase := .enter }
  | unopened {k b f} (next : o.operands[o.opened]? = some (.data k b))
      (phase : o.phase = .allocate) (fault : (n.openHandle k).2 = .error f) :
      Steps n o (n.openHandle k).1 { o with phase := .failed }
  | enters {k b} (next : o.operands[o.opened]? = some (.data k b)) (phase : o.phase = .enter)
      (whole : (n.handle k).memory ≠ .poisoned) : Steps n o n o.advance
  | poisoned {k b} (next : o.operands[o.opened]? = some (.data k b))
      (memory : (n.handle k).memory = .poisoned) : Steps n o n { o with phase := .failed }
  | failed {k b} (next : o.operands[o.opened]? = some (.data k b)) (phase : o.phase = .failed) :
      Steps n o n o

theorem steps_of_step (n : Node α) (o : Opening) : o.Steps n (o.step n).1 (o.step n).2 := by
  unfold step
  cases hnext : o.operands[o.opened]? with
  | none => exact .full hnext
  | some x =>
    cases x with
    | scratch bytes =>
      dsimp only
      split
      · rename_i hroom
        exact .scratch hnext hroom
      · rename_i hroom
        exact .overflow hnext hroom
    | data h a =>
      dsimp only
      cases hphase : o.phase with
      | look =>
        cases hm : (n.handle h).memory with
        | absent => exact .misses hnext hphase hm
        | present block => exact .finds hnext hphase hm
        | poisoned => exact .poisoned hnext hm
      | missed => exact .turns hnext hphase
      | allocate =>
        dsimp only
        cases hopen : n.openHandle h with
        | mk m r =>
          obtain rfl : (n.openHandle h).1 = m := congrArg Prod.fst hopen
          have hr : (n.openHandle h).2 = r := congrArg Prod.snd hopen
          cases r with
          | ok block => exact .allocates hnext hphase hr
          | error f => exact .unopened hnext hphase hr
      | enter =>
        dsimp only
        split
        · rename_i hm
          exact .poisoned hnext hm
        · rename_i hm
          exact .enters hnext hphase hm
      | failed => exact .failed hnext hphase

variable {n' : Node α} {o' : Opening}

namespace Steps

/-- A step only goes on with the same operands. -/
theorem same (hs : o.Steps n n' o') : o'.opener = o.opener ∧ o'.id = o.id ∧
    o'.operands = o.operands := by
  cases hs <;> exact ⟨rfl, rfl, rfl⟩

/-- A step does nothing to the rank but to allocate. -/
theorem node (hs : o.Steps n n' o') : n' = n ∨
    ∃ h a, o.operands[o.opened]? = some (.data h a) ∧ n' = (n.openHandle h).1 := by
  cases hs with
  | allocates next | unopened next => exact Or.inr ⟨_, _, next, rfl⟩
  | _ => exact Or.inl rfl

/-- No step fails if there is room for scratch memory and buffers can be opened. -/
theorem phase_ne_failed (hs : o.Steps n n' o') (hphase : o.phase ≠ .failed)
    (hscratch : ∀ bytes, .scratch bytes ∈ o.operands → allocatable ((bytes + 7) / 8 * 8) = true)
    (hdata : ∀ h a, .data h a ∈ o.operands → (n.handle h).memory ≠ .poisoned ∧
      ∃ block, (n.openHandle h).2 = .ok block) : o'.phase ≠ .failed := by
  cases hs with
  | full => exact hphase
  | scratch | enters => exact Phase.noConfusion
  | overflow next room => exact absurd (hscratch _ (List.mem_of_getElem? next)) room
  | misses | finds | turns | allocates => exact Phase.noConfusion
  | unopened next phase fault =>
    obtain ⟨-, block, hopen⟩ := hdata _ _ (List.mem_of_getElem? next)
    cases fault.symm.trans hopen
  | poisoned next memory => exact absurd memory (hdata _ _ (List.mem_of_getElem? next)).1
  | failed next phase => exact absurd phase hphase

end Steps

@[simp] theorem step_opener (n : Node α) (o : Opening) : (o.step n).2.opener = o.opener :=
  (steps_of_step n o).same.1

@[simp] theorem step_id (n : Node α) (o : Opening) : (o.step n).2.id = o.id :=
  (steps_of_step n o).same.2.1

@[simp] theorem step_operands (n : Node α) (o : Opening) : (o.step n).2.operands = o.operands :=
  (steps_of_step n o).same.2.2

/-- Memory is to be allocated for the next operand. -/
def Lacks (o : Opening) (h : HandleId) (a : Access) : Prop :=
  o.operands[o.opened]? = some (.data h a) ∧ (o.phase = .missed ∨ o.phase = .allocate)

/-- Memory is to be allocated only where there was none. -/
theorem Steps.lacks (hs : o.Steps n n' o') (hl : o'.Lacks h a) :
    o.operands[o.opened]? = some (.data h a) ∧
      (o.phase = .missed ∨ (n.handle h).memory = .absent) := by
  obtain ⟨hop, hphase⟩ := hl
  cases hs with
  | full next => cases next.symm.trans hop
  | misses next phase memory =>
    obtain ⟨rfl, rfl⟩ := Operand.data.inj (Option.some.inj (next.symm.trans hop))
    exact ⟨next, Or.inr memory⟩
  | turns next phase => exact ⟨hop, Or.inl phase⟩
  | failed next phase => simp [phase] at hphase
  | _ => simp [advance] at hphase

end

end Opening

/-! ## Tasks that have been started -/

namespace Node

variable {n : Node α} {log : List (Task α)} {done : TaskId → Prop} {todo : List (Task α)}
  {s : Scheduler α} {j k : TaskId}

/-- The task has been started, or it is to be started next. -/
def Underway (n : Node α) (todo : List (Task α)) (k : TaskId) : Prop :=
  n.Active k ∨ ∃ t ∈ todo, t.id = k

/-- It is the turn of a task that has been started. -/
theorem Orderly.turn (ho : n.Orderly log done todo) (hs : n.scheduler = some s)
    (hk : n.Underway todo k) : ¬done k ∧ ∀ j, Precedes log j k → done j := by
  rcases hk with hk | ⟨t, ht, rfl⟩
  · exact ⟨ho.sound.undone k hk, fun j hj => ho.sound.first j k hj hk⟩
  · obtain ⟨m, roster, hr⟩ := ho.running s hs
    obtain ⟨hmem, hwait, hdone, -⟩ := hr.starting t ht
    obtain ⟨e, he, hid⟩ := List.mem_map.mp hmem
    exact ⟨hdone, fun j hj => hr.done_of_precedes he (hid ▸ hwait) (hid ▸ hj)⟩

/-- Of two tasks that have been started neither has to wait for the other. -/
theorem Orderly.apart (ho : n.Orderly log done todo) (hs : n.scheduler = some s)
    (hj : n.Underway todo j) (hk : n.Underway todo k) : ¬Precedes log j k :=
  fun hp => (ho.turn hs hj).1 ((ho.turn hs hk).2 j hp)

/-- Two tasks that have been started do not conflict. -/
theorem Orderly.not_conflict (ho : n.Orderly log done todo) (hs : n.scheduler = some s)
    (hj : n.Underway todo j) (hk : n.Underway todo k) (hne : j ≠ k) {t u : Task α}
    (ht : log[j]? = some t) (hu : log[k]? = some u) : ¬Conflict t.uses u.uses := by
  intro hc
  rcases Nat.lt_or_gt_of_ne hne with hlt | hlt
  · exact ho.apart hs hj hk ⟨t, u, ht, hu, hlt, hc⟩
  · exact ho.apart hs hk hj ⟨u, t, hu, ht, hlt, hc.symm⟩

end Node

/-! ## Receives that have been answered -/

namespace Cluster

/-- The receive is not waiting any more. -/
def Answered (net : Cluster) (t : Ticket) : Prop :=
  ∃ c, net.receipts.find? t = some c ∧ c ≠ .waiting

variable {net net' : Cluster} {t : Ticket}

theorem Answered.congr (ha : net.Answered t)
    (h : net'.receipts.find? t = net.receipts.find? t) : net'.Answered t := by
  obtain ⟨c, hc, hne⟩ := ha
  exact ⟨c, h.trans hc, hne⟩

theorem Answered.forget (ha : net.Answered t) {t' : Ticket} (hne : t ≠ t') :
    (net.forget t').Answered t :=
  ha.congr (Table.find?_erase_of_ne _ hne)

theorem Answered.send (ha : net.Answered t) {src dst : Rank} {tag : Tag} {payload : Payload}
    (h : net.send src dst tag payload = .ok net') : net'.Answered t := by
  unfold Cluster.send at h
  split at h
  · cases h
  · split at h
    · cases h
    · dsimp only at h
      split at h
      · rename_i t' waiters _
        obtain rfl := Except.ok.inj h
        by_cases ht : t = t'
        · subst ht
          exact ⟨_, Table.find?_put_self _ _ _, Receipt.noConfusion⟩
        · exact ha.congr (Table.find?_put_of_ne _ _ ht)
      · obtain rfl := Except.ok.inj h
        exact ha

theorem Answered.receive (ha : net.Answered t) (ht : t < net.nextTicket) (rank src : Rank)
    (tag : Tag) : (net.receive rank src tag).1.Answered t := by
  have hne : t ≠ net.nextTicket := Nat.ne_of_lt ht
  unfold Cluster.receive
  dsimp only
  split
  · split <;> exact ha.congr (Table.find?_put_of_ne _ _ hne)
  · exact ha.congr (Table.find?_put_of_ne _ _ hne)

theorem Answered.retire (ha : net.Answered t) (rank : Rank) (range : TagRange) :
    (net.retire rank range).Answered t := by
  obtain ⟨c, hc, hne⟩ := ha
  refine Answered.congr ⟨c, hc, hne⟩ (find?_foldl_close_of_not ?_)
  intro e _ _ hwait
  exact hne (Option.some.inj (hc.symm.trans hwait))

end Cluster

/-- Starting a task does not take back the answer of a receive. -/
theorem Cluster.Answered.start [Scalar α] {net : Cluster} {t : Ticket} (ha : net.Answered t)
    (ht : t < net.nextTicket) (n : Node α) (task : Task α) :
    (Node.start net n task).1.Answered t := by
  unfold Node.start
  split
  · exact ha
  · split
    · exact ha
    · split
      · rename_i hsend
        exact ha.send hsend
      · exact ha
  · exact ha.receive ht _ _ _
  · split <;> exact ha
  · split <;> exact ha
  · exact ha.retire _ _
  · exact ha

/-! ## The openings of a rank -/

namespace Station

/-- An opening is for a computation that is ready, for the next task to start, for a receive that has
been answered, or for an accessor that has been granted. -/
inductive Placed (net : Cluster) (s : Station α) (o : Opening) : Prop
  | worker {w} (opener : o.opener = .worker) (mem : w ∈ s.node.work) (id : w.id = o.id)
      (operands : o.operands = w.op.operands)
  | send {t rest h dst tag} (opener : o.opener = .scheduler) (next : s.starting = t :: rest)
      (id : t.id = o.id) (job : t.job = .send h dst tag) (operands : o.operands = [.data h .read])
  | evict {t rest h} (opener : o.opener = .scheduler) (next : s.starting = t :: rest)
      (id : t.id = o.id) (job : t.job = .evict h) (operands : o.operands = [.data h .write])
  | receiver {a} (opener : o.opener = .receiver) (mem : a ∈ s.node.arrivals) (id : a.id = o.id)
      (operands : o.operands = [.data a.handle .write]) (answered : net.Answered a.ticket)
  | holder {a} (opener : o.opener = .holder) (held : s.node.held o.id = some a)
      (operands : o.operands = [.data a.handle a.access])

/-- Every opening belongs to a task of its own, and none has failed. -/
structure Steady (net : Cluster) (s : Station α) : Prop where
  placed : ∀ o ∈ s.openings, s.Placed net o
  distinct : (s.openings.map (·.id)).Nodup
  going : ∀ o ∈ s.openings, o.phase ≠ .failed

variable {net net' : Cluster} {s s' : Station α} {o o' : Opening} {log : List (Task α)}
  {done : TaskId → Prop} {scheduler : Scheduler α}

/-- What has just been begun is placed. -/
theorem placed_of_opening [Scalar α] {c : Opener} {i : Nat} (h : s.opening net c i = some o) :
    s.Placed net o := by
  unfold opening at h
  cases c with
  | worker =>
    obtain ⟨w, hw, rfl⟩ := Option.map_eq_some_iff.mp h
    exact .worker rfl (List.mem_of_getElem? hw) rfl rfl
  | scheduler =>
    dsimp only at h
    split at h
    · rename_i hnext
      cases h
      exact .send rfl hnext rfl rfl rfl
    · rename_i hnext
      cases h
      exact .evict rfl hnext rfl rfl rfl
    · cases h
  | receiver =>
    obtain ⟨a, ha, h⟩ := Option.bind_eq_some_iff.mp h
    split at h
    · rename_i hreceipt
      cases h
      exact .receiver rfl (List.mem_of_getElem? ha) rfl rfl ⟨_, hreceipt, Receipt.noConfusion⟩
    · rename_i hreceipt
      cases h
      exact .receiver rfl (List.mem_of_getElem? ha) rfl rfl ⟨_, hreceipt, Receipt.noConfusion⟩
    · cases h
    · cases h
  | holder =>
    dsimp only at h
    split at h
    · rename_i hfind
      cases h
      exact .holder rfl (Node.held_eq_some_iff.mpr ⟨hfind, rfl⟩) rfl
    · cases h

/-- Nothing is open of what has just been begun.  Memory is looked for first, unless the buffer is
opened for writing. -/
theorem begins_of_opening [Scalar α] {c : Opener} {i : Nat} (h : s.opening net c i = some o) :
    o.opened = 0 ∧ (o.phase = .look ∨ o.phase = .enter ∧ ∃ b, o.operands = [.data b .write]) := by
  unfold opening at h
  cases c with
  | worker =>
    obtain ⟨w, -, rfl⟩ := Option.map_eq_some_iff.mp h
    exact ⟨rfl, Or.inl rfl⟩
  | scheduler =>
    dsimp only at h
    split at h
    · cases h
      exact ⟨rfl, Or.inl rfl⟩
    · cases h
      exact ⟨rfl, Or.inr ⟨rfl, _, rfl⟩⟩
    · cases h
  | receiver =>
    obtain ⟨a, -, h⟩ := Option.bind_eq_some_iff.mp h
    split at h
    · cases h
      exact ⟨rfl, Or.inl rfl⟩
    · cases h
      exact ⟨rfl, Or.inr ⟨rfl, _, rfl⟩⟩
    · cases h
    · cases h
  | holder =>
    dsimp only at h
    split at h
    · cases h
      exact ⟨rfl, Or.inl rfl⟩
    · cases h

namespace Placed

/-- What opens the same operands for the same task is placed alike. -/
theorem congr (hp : s.Placed net o) (hopener : o'.opener = o.opener) (hid : o'.id = o.id)
    (hops : o'.operands = o.operands) : s.Placed net o' := by
  cases hp with
  | worker opener mem id operands =>
    exact .worker (hopener.trans opener) mem (id.trans hid.symm) (hops.trans operands)
  | send opener next id job operands =>
    exact .send (hopener.trans opener) next (id.trans hid.symm) job (hops.trans operands)
  | evict opener next id job operands =>
    exact .evict (hopener.trans opener) next (id.trans hid.symm) job (hops.trans operands)
  | receiver opener mem id operands answered =>
    exact .receiver (hopener.trans opener) mem (id.trans hid.symm) (hops.trans operands) answered
  | holder opener held operands =>
    exact .holder (hopener.trans opener) (hid ▸ held) (hops.trans operands)

/-- An opening stays placed while its task stays where it is. -/
theorem mono (hp : s.Placed net o) (hw : ∀ w ∈ s.node.work, w.id = o.id → w ∈ s'.node.work)
    (hs : ∀ t rest, o.opener = .scheduler → s.starting = t :: rest → t.id = o.id →
      ∃ rest', s'.starting = t :: rest')
    (ha : ∀ a ∈ s.node.arrivals, a.id = o.id → a ∈ s'.node.arrivals ∧
      (net.Answered a.ticket → net'.Answered a.ticket))
    (hv : ∀ a, s.node.held o.id = some a → s'.node.held o.id = some a) : s'.Placed net' o := by
  cases hp with
  | worker opener mem id operands => exact .worker opener (hw _ mem id) id operands
  | send opener next id job operands =>
    obtain ⟨rest', next'⟩ := hs _ _ opener next id
    exact .send opener next' id job operands
  | evict opener next id job operands =>
    obtain ⟨rest', next'⟩ := hs _ _ opener next id
    exact .evict opener next' id job operands
  | receiver opener mem id operands answered =>
    obtain ⟨mem', answered'⟩ := ha _ mem id
    exact .receiver opener mem' id operands (answered' answered)
  | holder opener held operands => exact .holder opener (hv _ held) operands

/-- The operands are opened for a task that has been started and is not done yet. -/
theorem task (hp : s.Placed net o) (ho : s.node.Orderly log done s.starting)
    (hs : s.node.scheduler = some scheduler) :
    s.node.Underway s.starting o.id ∧ ∃ t, log[o.id]? = some t ∧ t.uses = o.uses := by
  have hsound := ho.sound
  cases hp with
  | @worker w opener mem id operands =>
    obtain ⟨t, ht, hjob⟩ := hsound.work w mem
    obtain ⟨-, -, hproper⟩ := hsound.proper _ t ht
    rw [hjob] at hproper
    refine ⟨Or.inl (Or.inl ⟨w, mem, id⟩), t, id ▸ ht, ?_⟩
    rw [hproper, Opening.uses, operands]
    rfl
  | @send t rest h dst tag opener next id job operands =>
    rw [next] at ho
    have ht : log[t.id]? = some t := ho.next_eq hs fun u h => by
      rw [h] at job
      cases job
    obtain ⟨-, -, hproper⟩ := hsound.proper _ t ht
    rw [job] at hproper
    refine ⟨Or.inr ⟨t, next ▸ List.mem_cons_self, id⟩, t, id ▸ ht, ?_⟩
    rw [hproper, Opening.uses, operands]
    rfl
  | @evict t rest h opener next id job operands =>
    rw [next] at ho
    have ht : log[t.id]? = some t := ho.next_eq hs fun u h => by
      rw [h] at job
      cases job
    obtain ⟨-, -, hproper⟩ := hsound.proper _ t ht
    rw [job] at hproper
    refine ⟨Or.inr ⟨t, next ▸ List.mem_cons_self, id⟩, t, id ▸ ht, ?_⟩
    rw [hproper, Opening.uses, operands]
    rfl
  | @receiver a opener mem id operands answered =>
    obtain ⟨t, src, tag, ht, hjob⟩ := hsound.arrivals a mem
    obtain ⟨-, -, hproper⟩ := hsound.proper _ t ht
    rw [hjob] at hproper
    refine ⟨Or.inl (Or.inr (Or.inl ⟨a, mem, id⟩)), t, id ▸ ht, ?_⟩
    rw [hproper, Opening.uses, operands]
    rfl
  | @holder a opener held operands =>
    obtain ⟨hfind, hgranted⟩ := Node.held_eq_some_iff.mp held
    obtain ⟨t, ht, -, huses⟩ := hsound.accessors _ a hfind
    refine ⟨Or.inl (Or.inr (Or.inr ⟨a, hfind, hgranted⟩)), t, ht, ?_⟩
    rw [huses, Opening.uses, operands]
    rfl

/-- No buffer occurs twice among the operands unless it is only read. -/
theorem unshared (hp : s.Placed net o) (hw : ∀ w ∈ s.node.work, Unshared w.op.operands) :
    Unshared o.operands := by
  have hone : ∀ x : Operand, o.operands = [x] → Unshared o.operands := by
    intro x hx i j h a b hoff
    have hj := lt_of_getElem?_eq_some hoff.right
    rw [hx, List.length_singleton] at hj
    exact absurd hoff.lt (by omega)
  cases hp with
  | worker opener mem id operands => exact operands ▸ hw _ mem
  | send opener next id job operands => exact hone _ operands
  | evict opener next id job operands => exact hone _ operands
  | receiver opener mem id operands answered => exact hone _ operands
  | holder opener held operands => exact hone _ operands

end Placed

namespace Steady

/-- Two openings are for different tasks. -/
theorem eq_of_id_eq (hst : s.Steady net) (ho : o ∈ s.openings) (ho' : o' ∈ s.openings)
    (hid : o.id = o'.id) : o = o' :=
  List.inj_on_of_nodup_map hst.distinct ho ho' hid

/-- Two openings do not conflict. -/
theorem not_conflict (hst : s.Steady net) (hord : s.node.Orderly log done s.starting)
    (hs : s.node.scheduler = some scheduler) (ho : o ∈ s.openings) (ho' : o' ∈ s.openings)
    (hne : o ≠ o') : ¬Conflict o.uses o'.uses := by
  obtain ⟨hunder, t, ht, huses⟩ := (hst.placed o ho).task hord hs
  obtain ⟨hunder', t', ht', huses'⟩ := (hst.placed o' ho').task hord hs
  rw [← huses, ← huses']
  exact hord.not_conflict hs hunder hunder' (fun hid => hne (hst.eq_of_id_eq ho ho' hid)) ht ht'

/-- What is opened is no scratch memory. -/
theorem proper (hst : s.Steady net) (hord : s.node.Orderly log done s.starting)
    (hs : s.node.scheduler = some scheduler) (ho : o ∈ s.openings) {u : HandleId × Access}
    (hu : u ∈ o.uses) : u.2 ≠ .scratch := by
  obtain ⟨-, t, ht, huses⟩ := (hst.placed o ho).task hord hs
  exact (hord.sound.proper _ t ht).2.1 u (huses ▸ hu)

variable {h : HandleId} {a b : Access}

/-- A buffer that is open in one place and to be opened in another one is only read in both. -/
theorem reads_of_held (hst : s.Steady net) (hord : s.node.Orderly log done s.starting)
    (hs : s.node.scheduler = some scheduler) (hw : ∀ w ∈ s.node.work, Unshared w.op.operands)
    (ho : o ∈ s.openings) (hnext : o.operands[o.opened]? = some (.data h a))
    (ho' : o' ∈ s.openings) (hheld : (h, b) ∈ o'.held) : a.writes = false ∧ b.writes = false := by
  have hnone : ¬(a.writes = true ∨ b.writes = true) := by
    intro hab
    by_cases heq : o' = o
    · subst heq
      obtain ⟨i, hi, hbuf⟩ := Opening.mem_held_iff.mp hheld
      exact (hst.placed o' ho').unshared hw _ _ h b a ⟨hi, hbuf, hnext, hab.symm⟩
    · have huse := Opening.mem_uses_of_getElem? hnext
      have huse' := Opening.mem_uses_of_held hheld
      exact hst.not_conflict hord hs ho ho' (Ne.symm heq)
        ⟨h, a, b, huse, huse', hst.proper hord hs ho huse, hst.proper hord hs ho' huse', hab⟩
  rw [not_or, Bool.not_eq_true, Bool.not_eq_true] at hnone
  exact hnone

/-- Every lock can be had that is not asked for to allocate for a reader, if readers do not give way to
anybody who does. -/
theorem free (gives : Bool) (hst : s.Steady net) (hord : s.node.Orderly log done s.starting)
    (hs : s.node.scheduler = some scheduler) (hw : ∀ w ∈ s.node.work, Unshared w.op.operands)
    (ho : o ∈ s.openings) (hlack : ∀ o' ∈ s.openings, gives = true ∨ o' = o → ∀ h a, o'.Lacks h a →
      a.writes = true) {l : HandleId × Bool} (hl : o.asks = some l) : s.free gives l = true := by
  obtain ⟨h, w⟩ := l
  obtain ⟨a, hnext, -⟩ := Opening.next_of_asks hl
  -- whoever asks for the lock for writing is going to write
  have hasks : ∀ o₁ ∈ s.openings, gives = true ∨ o₁ = o → ∀ h₁, o₁.asks = some (h₁, true) →
      ∃ b, o₁.operands[o₁.opened]? = some (.data h₁ b) ∧ b.writes = true := by
    intro o₁ ho₁ hcares h₁ h₁l
    obtain ⟨b, hb, hbw⟩ := Opening.next_of_asks h₁l
    exact ⟨b, hb, (hbw rfl).elim (fun hp => hlack o₁ ho₁ hcares h₁ b ⟨hb, Or.inr hp⟩) fun h => h⟩
  unfold Station.free
  rw [List.all_eq_true]
  intro o₁ ho₁
  cases w with
  | true =>
    obtain ⟨b, hb, hbw⟩ := hasks o ho (Or.inr rfl) h hl
    unfold Opening.admits
    rw [List.all_eq_true]
    rintro ⟨k, c⟩ hc
    refine decide_eq_true ?_
    rintro rfl
    exact Bool.eq_false_iff.mp (hst.reads_of_held hord hs hw ho hb ho₁ hc).1 hbw
  | false =>
    unfold Opening.admits
    rw [Bool.and_eq_true, List.all_eq_true, Bool.not_eq_true', Bool.and_eq_false_iff]
    constructor
    · rintro ⟨k, c⟩ hc
      refine decide_eq_true ?_
      rintro rfl
      exact (hst.reads_of_held hord hs hw ho hnext ho₁ hc).2
    · by_cases hgives : gives = true
      · refine Or.inr (decide_eq_false ?_)
        intro h₁l
        obtain ⟨b, hb, hbw⟩ := hasks o₁ ho₁ (Or.inl hgives) h h₁l
        have hne : o ≠ o₁ := by
          rintro rfl
          exact absurd (hl.symm.trans h₁l) (by simp)
        have huse := Opening.mem_uses_of_getElem? hnext
        refine hst.not_conflict hord hs ho ho₁ hne ?_
        exact (Conflict.of_write (Opening.mem_uses_of_getElem? hb) huse hbw
          (hst.proper hord hs ho huse)).symm
      · exact Or.inl (Bool.eq_false_iff.mpr hgives)

end Steady

end Station

end TiledTensor
