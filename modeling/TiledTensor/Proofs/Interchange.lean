import Mathlib.Data.List.InsertIdx
import TiledTensor.Proofs.Courses

/-!
# Operations exchanged for others

A rank looks at an operation in few places: at the buffers that it uses and whether they clash, at
whether it is registered, and at what a run of it leaves in the buffers.  A rank whose operations
are exchanged for others that agree with them in this undergoes the same things, and ends up with
the same operations exchanged (`Node.undergo_mapOps`).

The exchange is by a function that picks one operation for each of those that agree.  Two ranks
differ only in such operations if the exchange makes them one.
-/

namespace TiledTensor

variable {α : Type}

/-! ## Tables -/

namespace Table

variable {κ ν μ : Type}

/-- Other values under the same keys. -/
def mapValues (g : ν → μ) (t : Table κ ν) : Table κ μ := t.map fun e => (e.1, g e.2)

@[simp] theorem keys_mapValues (g : ν → μ) (t : Table κ ν) : (t.mapValues g).keys = t.keys := by
  simp [keys, mapValues]

theorem mapValues_mapValues {ρ : Type} (g' : μ → ρ) (g : ν → μ) (t : Table κ ν) :
    (t.mapValues g).mapValues g' = t.mapValues (g' ∘ g) := by
  simp [mapValues]

variable [DecidableEq κ]

@[simp] theorem find?_mapValues (g : ν → μ) (t : Table κ ν) (k : κ) :
    (t.mapValues g).find? k = (t.find? k).map g := by
  induction t with
  | nil => rfl
  | cons e t ih =>
    rw [mapValues] at ih
    by_cases h : e.1 = k <;> simp [mapValues, find?, h, ih]

theorem put_mapValues (g : ν → μ) (t : Table κ ν) (k : κ) (v : ν) :
    (t.mapValues g).put k (g v) = (t.put k v).mapValues g := by
  induction t with
  | nil => rfl
  | cons e t ih =>
    rw [mapValues] at ih
    by_cases h : e.1 = k <;> simp [mapValues, put, h, ih]

theorem erase_mapValues (g : ν → μ) (t : Table κ ν) (k : κ) :
    (t.mapValues g).erase k = (t.erase k).mapValues g := by
  induction t with
  | nil => rfl
  | cons e t ih =>
    rw [mapValues] at ih
    by_cases h : e.1 = k <;> simp [mapValues, erase, h, ih]

end Table

/-! ## The exchange -/

/-- The name of a task as far as anything says it: that of an operation is not said again. -/
def Job.label (name : String) : Job α → String
  | .compute _ | .withdrawn => ""
  | _ => name

def Job.mapOps (f : Op α → Op α) : Job α → Job α
  | .compute op => .compute (f op)
  | job => job

def Task.mapOps (f : Op α → Op α) (t : Task α) : Task α :=
  ⟨t.id, t.job.label t.name, t.uses, t.job.mapOps f⟩

@[simp] theorem Task.id_mapOps (f : Op α → Op α) (t : Task α) : (t.mapOps f).id = t.id := rfl

@[simp] theorem Task.uses_mapOps (f : Op α → Op α) (t : Task α) : (t.mapOps f).uses = t.uses := rfl

def Event.mapOps (f : Op α → Op α) : Event α → Event α
  | .submit t => .submit (t.mapOps f)
  | e => e

def Scheduler.mapOps (f : Op α → Op α) (s : Scheduler α) : Scheduler α :=
  { s with pending := s.pending.mapValues (Task.mapOps f) }

def Reaction.mapOps (f : Op α → Op α) (r : Reaction α) : Reaction α :=
  { r with started := r.started.map (Task.mapOps f) }

def Work.mapOps (f : Op α → Op α) (w : Work α) : Work α := ⟨w.id, f w.op⟩

/-- The rank with all its operations exchanged. -/
def Node.mapOps (f : Op α → Op α) (n : Node α) : Node α :=
  { n with
    events := n.events.map (Event.mapOps f)
    scheduler := n.scheduler.map (Scheduler.mapOps f)
    work := n.work.map (Work.mapOps f) }

def Happening.mapOps (f : Op α → Op α) : Happening α → Happening α
  | .submit op device => .submit (f op) device
  | a => a

/-! Exchanges that are made one after the other are one exchange. -/

section

variable (f g : Op α → Op α)

@[simp] theorem Task.mapOps_comp : Task.mapOps g ∘ Task.mapOps f = Task.mapOps (g ∘ f) := by
  funext ⟨id, name, uses, job⟩
  cases job <;> rfl

@[simp] theorem Event.mapOps_comp : Event.mapOps g ∘ Event.mapOps f = Event.mapOps (g ∘ f) := by
  funext e
  cases e with
  | submit t => exact congrArg Event.submit (congrFun (Task.mapOps_comp f g) t)
  | _ => rfl

@[simp] theorem Work.mapOps_comp : Work.mapOps g ∘ Work.mapOps f = Work.mapOps (g ∘ f) := rfl

theorem Scheduler.mapOps_mapOps (s : Scheduler α) : (s.mapOps f).mapOps g = s.mapOps (g ∘ f) := by
  simp [mapOps, Table.mapValues_mapValues]

theorem Reaction.mapOps_mapOps (r : Reaction α) : (r.mapOps f).mapOps g = r.mapOps (g ∘ f) := by
  simp [mapOps]

theorem Node.mapOps_mapOps (n : Node α) : (n.mapOps f).mapOps g = n.mapOps (g ∘ f) := by
  have hs : Scheduler.mapOps g ∘ Scheduler.mapOps f = Scheduler.mapOps (g ∘ f) :=
    funext (Scheduler.mapOps_mapOps f g)
  simp [mapOps, hs]

end

/-- An exchange after which there is nothing left to exchange. -/
def Op.Settled (f : Op α → Op α) : Prop := f ∘ f = f

theorem Node.mapOps_of_settled {f : Op α → Op α} (hf : Op.Settled f) (n : Node α) :
    (n.mapOps f).mapOps f = n.mapOps f := by
  rw [mapOps_mapOps, hf]

/-! ## The scheduler -/

namespace Scheduler

variable {f : Op α → Op α}

@[simp] theorem graph_mapOps (f : Op α → Op α) (s : Scheduler α) : (s.mapOps f).graph = s.graph := rfl

@[simp] theorem pending_mapOps (f : Op α → Op α) (s : Scheduler α) :
    (s.mapOps f).pending = s.pending.mapValues (Task.mapOps f) := rfl

/-- A scheduler and what it answers, with their operations exchanged. -/
def mapBoth (f : Op α → Op α) (p : Scheduler α × Reaction α) : Scheduler α × Reaction α :=
  (p.1.mapOps f, p.2.mapOps f)

theorem mapBoth_mapBoth (hf : Op.Settled f) (p : Scheduler α × Reaction α) :
    mapBoth f (mapBoth f p) = mapBoth f p := by
  unfold mapBoth
  rw [mapOps_mapOps, Reaction.mapOps_mapOps, hf]

theorem settle_mapOps (f : Op α → Op α) (s : Scheduler α) (tasks : List (Task α)) :
    settle (s.mapOps f) (tasks.map (Task.mapOps f)) = mapBoth f (settle s tasks) := by
  unfold settle
  show (if s.graph.isEmpty then _ else _) = _
  split <;> rfl

theorem unpark_mapValues (g : Task α → Task α) (pending : Table TaskId (Task α)) (ids : List TaskId) :
    unpark (pending.mapValues g) ids =
      ((unpark pending ids).1.map g, (unpark pending ids).2.mapValues g) := by
  induction ids generalizing pending with
  | nil => rfl
  | cons id ids ih =>
    unfold unpark
    rw [Table.find?_mapValues]
    cases pending.find? id with
    | none => exact ih pending
    | some t =>
      dsimp only [Option.map_some]
      rw [Table.erase_mapValues, ih]
      rfl

theorem submit_mapOps (f : Op α → Op α) (s : Scheduler α) (t : Task α) :
    (s.mapOps f).submit (t.mapOps f) = mapBoth f (s.submit t) := by
  unfold submit
  rw [graph_mapOps, pending_mapOps, Task.id_mapOps, Task.uses_mapOps]
  generalize s.graph.insert t.id t.uses = p
  obtain ⟨graph, ready⟩ := p
  cases ready with
  | true => rfl
  | false =>
    dsimp only
    rw [if_neg Bool.false_ne_true, if_neg Bool.false_ne_true, Table.put_mapValues]
    rfl

/-- A task that is withdrawn does not say its name any more, so the two sides are compared after the
exchange. -/
theorem complete_mapOps (hf : Op.Settled f) (s : Scheduler α) (id : TaskId) :
    ((s.mapOps f).complete id).map (mapBoth f) = (s.complete id).map (mapBoth f) := by
  unfold complete
  rw [graph_mapOps, pending_mapOps, Table.find?_mapValues]
  cases s.pending.find? id with
  | some t =>
    have hput : ((s.pending.mapValues (Task.mapOps f)).put id
          { t.mapOps f with job := .withdrawn }).mapValues (Task.mapOps f) =
        (s.pending.put id { t with job := .withdrawn }).mapValues (Task.mapOps f) := by
      rw [← Table.put_mapValues, ← Table.put_mapValues, Table.mapValues_mapValues, Task.mapOps_comp, hf]
      rfl
    exact congrArg (fun pending : Table TaskId (Task α) =>
      Except.ok (({ s with pending } : Scheduler α), ({} : Reaction α))) hput
  | none =>
    dsimp only [Option.map_none]
    cases s.graph.complete id with
    | error e => rfl
    | ok p =>
      refine congrArg Except.ok ?_
      rw [unpark_mapValues]
      have hsettle := settle_mapOps f { s with graph := p.1, pending := (unpark s.pending p.2).2 }
        (unpark s.pending p.2).1
      exact (congrArg (mapBoth f) hsettle).trans (mapBoth_mapBoth hf _)

theorem react_mapOps (hf : Op.Settled f) (s : Scheduler α) (e : Event α) :
    ((s.mapOps f).react (e.mapOps f)).map (mapBoth f) = (s.react e).map (mapBoth f) := by
  cases e with
  | submit t =>
    show Except.ok (mapBoth f ((s.mapOps f).submit (t.mapOps f))) = _
    rw [submit_mapOps, mapBoth_mapBoth hf]
    rfl
  | complete id => exact complete_mapOps hf s id
  | fail id e => exact complete_mapOps hf (s.note e) id
  | wait b =>
    have hsettle := settle_mapOps f { s with waiters := s.waiters ++ [b] } []
    exact congrArg Except.ok ((congrArg (mapBoth f) hsettle).trans (mapBoth_mapBoth hf _))

end Scheduler

namespace Node

variable {f : Op α → Op α}

/-! ## Buffers and events -/

@[simp] theorem rank_mapOps (f : Op α → Op α) (n : Node α) : (n.mapOps f).rank = n.rank := rfl

@[simp] theorem size_mapOps (f : Op α → Op α) (n : Node α) : (n.mapOps f).size = n.size := rfl

@[simp] theorem codelets_mapOps (f : Op α → Op α) (n : Node α) :
    (n.mapOps f).codelets = n.codelets := rfl

@[simp] theorem handle_mapOps (f : Op α → Op α) (n : Node α) (h : HandleId) :
    (n.mapOps f).handle h = n.handle h := rfl

theorem setHandle_mapOps (f : Op α → Op α) (n : Node α) (h : HandleId) (e : Handle α) :
    (n.mapOps f).setHandle h e = (n.setHandle h e).mapOps f := rfl

theorem obstacle_mapOps (f : Op α → Op α) (n : Node α) (h : HandleId) (a : Access) :
    (n.mapOps f).obstacle h a = n.obstacle h a := rfl

@[simp] theorem isSome_mapOps (f : Op α → Op α) (n : Node α) :
    (n.mapOps f).scheduler.isSome = n.scheduler.isSome := Option.isSome_map

theorem markWritten_mapOps (f : Op α → Op α) (n : Node α) (uses : List (HandleId × Access)) :
    (n.mapOps f).markWritten uses = (n.markWritten uses).mapOps f := by
  apply List.foldl_hom (mapOps f)
  intro n u
  split <;> rfl

theorem poisonAll_mapOps (f : Op α → Op α) (n : Node α) (uses : List (HandleId × Access)) :
    (n.mapOps f).poisonAll uses = (n.poisonAll uses).mapOps f := by
  apply List.foldl_hom (mapOps f)
  intro n u
  split <;> rfl

theorem post_mapOps (f : Op α → Op α) (n : Node α) (e : Event α) :
    (n.mapOps f).post (e.mapOps f) = (n.post e).mapOps f := by
  unfold post
  rw [isSome_mapOps]
  split
  · simp [mapOps]
  · rfl

theorem enqueue_mapOps (f : Op α → Op α) (n : Node α) (name : String)
    (uses : List (HandleId × Access)) (job : Job α) :
    (n.mapOps f).enqueue (job.label name) uses (job.mapOps f) =
      ((n.enqueue name uses job).1.mapOps f, (n.enqueue name uses job).2) := by
  unfold enqueue
  dsimp only
  rw [isSome_mapOps]
  split
  · exact Prod.ext (post_mapOps f { n with nextTask := n.nextTask + 1 } (.submit ⟨_, name, uses, job⟩))
      rfl
  · rfl

/-- A task without an operation is queued as it is. -/
theorem enqueue_mapOps_of_eq {name : String} {job : Job α} (hname : job.label name = name)
    (hjob : job.mapOps f = job) (n : Node α) (uses : List (HandleId × Access)) :
    (n.mapOps f).enqueue name uses job =
      ((n.enqueue name uses job).1.mapOps f, (n.enqueue name uses job).2) := by
  have henqueue := enqueue_mapOps f n name uses job
  rwa [hname, hjob] at henqueue

/-! ## Calls -/

theorem acquire_mapOps (f : Op α → Op α) (n : Node α) (h : HandleId) (a : Access) :
    (n.mapOps f).acquire h a = ((n.acquire h a).1.mapOps f, (n.acquire h a).2) := by
  unfold acquire
  rw [markWritten_mapOps, obstacle_mapOps]
  split
  · rfl
  · split
    · rfl
    · rw [enqueue_mapOps_of_eq rfl rfl]
      generalize (n.markWritten [(h, a)]).enqueue "acquire" [(h, a)] .grant = p
      obtain ⟨m, r⟩ := p
      cases r <;> rfl

theorem transfer_mapOps (f : Op α → Op α) (n : Node α) (h : HandleId) (t : Rank) :
    (n.mapOps f).transfer h t = ((n.transfer h t).1.mapOps f, (n.transfer h t).2) := by
  unfold transfer
  dsimp only [handle_mapOps]
  rw [size_mapOps, rank_mapOps]
  split
  · rfl
  · split
    · rfl
    · cases (n.handle h).tag with
      | none => rfl
      | some tag =>
        dsimp only
        split
        · split
          · rfl
          · rw [setHandle_mapOps, enqueue_mapOps_of_eq rfl rfl]
        · split
          · generalize (n.handle h).markSent t = p
            obtain ⟨e, marked⟩ := p
            cases marked with
            | false => rfl
            | true =>
              dsimp only
              rw [setHandle_mapOps, enqueue_mapOps_of_eq rfl rfl]
          · rfl

theorem flush_mapOps (f : Op α → Op α) (n : Node α) (h : HandleId) :
    (n.mapOps f).flush h = ((n.flush h).1.mapOps f, (n.flush h).2) := by
  unfold flush
  rw [handle_mapOps, rank_mapOps]
  generalize (n.handle h).flush n.rank = p
  obtain ⟨e, held⟩ := p
  cases held with
  | false => rfl
  | true =>
    dsimp only
    rw [setHandle_mapOps, enqueue_mapOps_of_eq rfl rfl]

theorem retire_mapOps (f : Op α → Op α) (n : Node α) (hs : List HandleId) (tags : TagRange) :
    (n.mapOps f).retire hs tags = (n.retire hs tags).mapOps f := by
  unfold retire
  dsimp only
  rw [enqueue_mapOps_of_eq rfl rfl]

theorem release_mapOps (f : Op α → Op α) (n : Node α) (k : TaskId) :
    (n.mapOps f).release k = (n.release k).mapOps f :=
  post_mapOps f { n with accessors := n.accessors.erase k } (.complete k)

theorem wait_mapOps (f : Op α → Op α) (n : Node α) :
    (n.mapOps f).wait = (n.wait.1.mapOps f, n.wait.2) := by
  unfold wait
  rw [isSome_mapOps]
  split
  · exact Prod.ext (post_mapOps f { n with
      nextBarrier := n.nextBarrier + 1, barriers := n.barriers.put n.nextBarrier .waiting } (.wait _)) rfl
  · rfl

/-- What a rank looks at when an operation is submitted: two operations agree in this. -/
structure Similar (n : Node α) (op op' : Op α) : Prop where
  uses : op'.uses = op.uses
  clash : firstClash op'.operands = firstClash op.operands
  name : op'.name ∈ n.codelets ↔ op.name ∈ n.codelets

section

variable {n n' : Node α} {op op' : Op α} (hn : n'.mapOps f = n.mapOps f)

include hn

theorem obstacle_congr (h : HandleId) (a : Access) : n'.obstacle h a = n.obstacle h a := by
  rw [← obstacle_mapOps f n', hn, obstacle_mapOps]

/-- Similar operations are rejected together, and those that are registered for the same reason. -/
theorem rejection_congr (hs : n.Similar op op') (device : Device) :
    (n'.rejection op' device = none ↔ n.rejection op device = none) ∧
      (op.name ∈ n.codelets → n'.rejection op' device = n.rejection op device) := by
  have hcodelets : n'.codelets = n.codelets := by
    rw [← codelets_mapOps f n', hn, codelets_mapOps]
  have hobstacle : (fun u : HandleId × Access => n'.obstacle u.1 u.2) = fun u => n.obstacle u.1 u.2 :=
    funext fun u => obstacle_congr hn u.1 u.2
  cases device with
  | accelerator => exact ⟨Iff.rfl, fun _ => rfl⟩
  | cpu =>
    unfold rejection
    dsimp only
    rw [hs.clash, hs.uses, hcodelets, hobstacle]
    by_cases hname : op.name ∈ n.codelets
    · rw [if_pos hname, if_pos (hs.name.mpr hname)]
      exact ⟨Iff.rfl, fun _ => rfl⟩
    · rw [if_neg hname, if_neg (mt hs.name.mp hname)]
      exact ⟨⟨nofun, nofun⟩, fun h => absurd h hname⟩

/-- Similar operations with one substitute are submitted alike. -/
theorem submitOn_congr (hs : n.Similar op op') (hop : f op' = f op) (device : Device) :
    (n'.submitOn op' device).1.mapOps f = (n.submitOn op device).1.mapOps f ∧
      (op.name ∈ n.codelets → (n'.submitOn op' device).2 = (n.submitOn op device).2) := by
  obtain ⟨hnone, hsame⟩ := rejection_congr hn hs device
  unfold submitOn
  cases hr : n.rejection op device with
  | some e =>
    rw [hr] at hnone hsame
    obtain ⟨e', he'⟩ := Option.ne_none_iff_exists'.mp (mt hnone.mp nofun)
    rw [he'] at hsame ⊢
    exact ⟨hn, fun h => congrArg Except.error (Option.some.inj (hsame h))⟩
  | none =>
    rw [hnone.mpr hr]
    dsimp only
    have hqueue := enqueue_mapOps f (n.markWritten op.uses) op.name op.uses (.compute op)
    have hqueue' := enqueue_mapOps f (n'.markWritten op'.uses) op'.name op'.uses (.compute op')
    rw [← markWritten_mapOps] at hqueue hqueue'
    rw [hn, hs.uses, show Job.mapOps f (.compute op') = .compute (f op') from rfl, hop] at hqueue'
    obtain ⟨hnode, hid⟩ := Prod.mk.inj (hqueue'.symm.trans hqueue)
    rw [hs.uses]
    exact ⟨hnode, fun _ => congrArg (Except.map _) hid⟩

end

/-- A rank does not notice an exchange for similar operations that changes nothing about a run on
the buffers as they are. -/
structure Blind (f : Op α → Op α) [Scalar α] (n : Node α) : Prop where
  settled : Op.Settled f
  similar : ∀ op, n.Similar op (f op)
  run : ∀ op (m : Node α), m.handles = n.handles → m.run (f op) = m.run op

variable [Scalar α]

theorem openHandle_mapOps (f : Op α → Op α) (n : Node α) (h : HandleId) :
    (n.mapOps f).openHandle h = ((n.openHandle h).1.mapOps f, (n.openHandle h).2) := rfl

theorem enterWrite_mapOps (f : Op α → Op α) (n : Node α) (c : Accessor) (block : List α) :
    (n.mapOps f).enterWrite c block = (n.enterWrite c block).map (mapOps f) := by
  unfold enterWrite enter
  rw [openHandle_mapOps]
  generalize n.openHandle c.handle = p
  obtain ⟨m, r⟩ := p
  cases r with
  | error e => rfl
  | ok old =>
    dsimp only
    unfold write
    split <;> rfl

/-! ## Runs of operations -/

theorem openAll_mapOps (f : Op α → Op α) (n : Node α) (operands : List Operand) :
    (n.mapOps f).openAll operands = ((n.openAll operands).1.mapOps f, (n.openAll operands).2) := by
  induction operands generalizing n with
  | nil => rfl
  | cons o operands ih =>
    unfold openAll
    cases o with
    | scratch bytes =>
      dsimp only
      split
      · rw [ih]
      · rfl
    | data h a =>
      dsimp only
      rw [openHandle_mapOps]
      generalize n.openHandle h = p
      obtain ⟨m, r⟩ := p
      cases r with
      | error e => rfl
      | ok block =>
        dsimp only
        rw [ih]
        generalize m.openAll operands = q
        obtain ⟨m', views⟩ := q
        cases views with
        | some views => rfl
        | none =>
          dsimp only
          split <;> rfl

omit [Scalar α] in
theorem storeAll_mapOps (f : Op α → Op α) (n : Node α) (operands : List Operand)
    (views : List (View α)) :
    (n.mapOps f).storeAll operands views = (n.storeAll operands views).mapOps f := by
  induction operands generalizing n views with
  | nil =>
    unfold storeAll
    rfl
  | cons o operands ih =>
    cases views with
    | nil => cases o <;> rfl
    | cons v views =>
      cases o with
      | scratch bytes => exact ih n views
      | data h a =>
        unfold storeAll
        cases v with
        | exclusive block =>
          dsimp only
          split
          · exact ih (n.setHandle h ((n.handle h).store block)) views
          · exact ih n views
        | _ => exact ih n views

/-- A run of an operation leaves the others alone. -/
theorem run_mapOps (f : Op α → Op α) (n : Node α) (op : Op α) :
    (n.mapOps f).run op = (n.run op).mapOps f := by
  unfold run
  rw [openAll_mapOps]
  generalize n.openAll op.operands = p
  obtain ⟨m, views⟩ := p
  cases views with
  | none => rfl
  | some views =>
    dsimp only
    cases op.codelet views with
    | ok out => exact storeAll_mapOps f m op.operands out
    | error e => exact poisonAll_mapOps f m op.uses

theorem runWork_mapOps {n : Node α} (hf : n.Blind f) (i : Nat) :
    (n.mapOps f).runWork i = (n.runWork i).map (mapOps f) := by
  unfold runWork
  rw [show (n.mapOps f).work[i]? = n.work[i]?.map (Work.mapOps f) from List.getElem?_map]
  cases n.work[i]? with
  | none => rfl
  | some w =>
    have hwork : ({ n.mapOps f with work := (n.mapOps f).work.eraseIdx i } : Node α) =
        mapOps f { n with work := n.work.eraseIdx i } := by
      simp [mapOps, List.eraseIdx_map]
    refine congrArg some ?_
    show Node.post (Node.run _ (f w.op)) (Event.complete w.id) = _
    rw [hwork, run_mapOps, hf.run w.op { n with work := n.work.eraseIdx i } rfl]
    exact post_mapOps f _ (.complete w.id)

/-! ## Receives -/

omit [Scalar α] in
theorem abandon_mapOps (f : Op α → Op α) (n : Node α) (a : Arrival) (e : TaskError) :
    (n.mapOps f).abandon a e = (n.abandon a e).mapOps f := by
  unfold abandon
  rw [handle_mapOps, rank_mapOps]
  dsimp only
  cases ((n.handle a.handle).flush n.rank).1.evict with
  | ok copy => exact post_mapOps f (n.setHandle a.handle copy) (.fail a.id e)
  | error e => rfl

theorem accept_mapOps (f : Op α → Op α) (n : Node α) (a : Arrival) (payload : Payload) :
    (n.mapOps f).accept a payload = ((n.accept a payload).1.mapOps f, (n.accept a payload).2) := by
  unfold accept
  rw [openHandle_mapOps]
  generalize n.openHandle a.handle = p
  obtain ⟨m, r⟩ := p
  cases r with
  | error e => rfl
  | ok block =>
    dsimp only
    split <;> rfl

theorem finish_mapOps (f : Op α → Op α) (n : Node α) (a : Arrival) (r : Receipt) :
    (n.mapOps f).finish a r = (n.finish a r).mapOps f := by
  cases r with
  | waiting => rfl
  | refused e => exact abandon_mapOps f n a _
  | delivered payload =>
    unfold finish
    dsimp only
    rw [accept_mapOps]
    generalize n.accept a payload = p
    obtain ⟨m, r⟩ := p
    cases r with
    | error e => rfl
    | ok misfit =>
      cases misfit with
      | none => exact post_mapOps f m (.complete a.id)
      | some e => exact abandon_mapOps f m a e

theorem takeArrival_mapOps (f : Op α → Op α) (net : Cluster) (n : Node α) (i : Nat) :
    takeArrival net (n.mapOps f) i = (takeArrival net n i).map fun p => (p.1, p.2.mapOps f) := by
  unfold takeArrival
  rw [show (n.mapOps f).arrivals = n.arrivals from rfl]
  cases n.arrivals[i]? with
  | none => rfl
  | some a =>
    dsimp only
    cases net.receipts.find? a.ticket with
    | none => rfl
    | some r =>
      cases r with
      | waiting => rfl
      | _ =>
        refine congrArg (fun m => some (net.forget a.ticket, m)) ?_
        exact finish_mapOps f { n with arrivals := n.arrivals.eraseIdx i } a _

/-! ## Starting tasks -/

omit [Scalar α] in
theorem stop_mapOps (f : Op α → Op α) (n : Node α) : (n.mapOps f).stop = n.stop.mapOps f := by
  unfold stop
  rw [show (n.mapOps f).scheduler = n.scheduler.map (Scheduler.mapOps f) from rfl]
  cases n.scheduler with
  | none => rfl
  | some s =>
    dsimp only [Option.map_some]
    rw [Scheduler.pending_mapOps, Table.keys_mapValues]
    rfl

omit [Scalar α] in
theorem note_mapOps (f : Op α → Op α) (n : Node α) (e : TaskError) :
    (n.note e).mapOps f = (n.mapOps f).note e := by
  unfold note mapOps
  dsimp only
  rw [Option.map_map, Option.map_map]
  rfl

theorem start_mapOps (f : Op α → Op α) (net : Cluster) (n : Node α) (t : Task α) :
    start net (n.mapOps f) (t.mapOps f) = ((start net n t).1, (start net n t).2.mapOps f) := by
  obtain ⟨id, name, uses, job⟩ := t
  have hpost : ∀ m : Node α, (m.mapOps f).post (.complete id) = (m.post (.complete id)).mapOps f :=
    fun m => post_mapOps f m (.complete id)
  cases job with
  | compute op => simp [start, mapOps, Task.mapOps, Job.mapOps, Work.mapOps]
  | send h dst tag =>
    show start net (n.mapOps f) ⟨id, name, uses, .send h dst tag⟩ = _
    unfold start
    dsimp only
    rw [openHandle_mapOps]
    generalize n.openHandle h = p
    obtain ⟨m, r⟩ := p
    cases r with
    | error e => exact Prod.ext rfl (stop_mapOps f m)
    | ok block =>
      dsimp only [rank_mapOps]
      cases net.send m.rank dst tag (Scalar.encodeBlock block) with
      | ok net => exact Prod.ext rfl (hpost m)
      | error e =>
        refine Prod.ext rfl ?_
        dsimp only
        rw [← hpost, note_mapOps]
  | receive h src tag => rfl
  | evict h =>
    show start net (n.mapOps f) ⟨id, name, uses, .evict h⟩ = _
    unfold start
    dsimp only [handle_mapOps]
    cases (n.handle h).evict with
    | ok e => exact Prod.ext rfl (hpost (n.setHandle h e))
    | error e => exact Prod.ext rfl (stop_mapOps f n)
  | grant =>
    show start net (n.mapOps f) ⟨id, name, uses, .grant⟩ = _
    unfold start
    dsimp only
    rw [show (n.mapOps f).accessors = n.accessors from rfl]
    split
    · rfl
    · exact Prod.ext rfl (hpost n)
  | retire tags => exact Prod.ext rfl (hpost n)
  | withdrawn => exact Prod.ext rfl (hpost n)

theorem startAll_mapOps (f : Op α → Op α) (net : Cluster) (n : Node α) (tasks : List (Task α)) :
    startAll net (n.mapOps f) (tasks.map (Task.mapOps f)) =
      ((startAll net n tasks).1, (startAll net n tasks).2.mapOps f) := by
  induction tasks generalizing net n with
  | nil => rfl
  | cons t tasks ih =>
    rw [List.map_cons]
    unfold startAll
    rw [start_mapOps]
    dsimp only
    rw [isSome_mapOps]
    split
    · exact ih _ _
    · rw [List.map_map]
      rfl

theorem startAll_congr {m m' : Node α} {tasks tasks' : List (Task α)} (net : Cluster)
    (hm : m'.mapOps f = m.mapOps f)
    (ht : tasks'.map (Task.mapOps f) = tasks.map (Task.mapOps f)) :
    (startAll net m' tasks').1 = (startAll net m tasks).1 ∧
      (startAll net m' tasks').2.mapOps f = (startAll net m tasks).2.mapOps f := by
  have h := (startAll_mapOps f net m' tasks').symm
  rw [hm, ht, startAll_mapOps] at h
  exact Prod.mk.inj h

/-- An event is taken as it would be with the operations exchanged, and the same tasks are
started. -/
theorem takeEvent_mapOps (hf : Op.Settled f) (net : Cluster) (n : Node α) :
    (takeEvent net (n.mapOps f)).map (fun p => (p.1, p.2.mapOps f)) =
      (takeEvent net n).map fun p => (p.1, p.2.mapOps f) := by
  cases hs : n.scheduler with
  | none =>
    unfold takeEvent
    rw [hs, show (n.mapOps f).scheduler = none from congrArg (Option.map _) hs]
  | some s =>
    cases he : n.events with
    | nil =>
      unfold takeEvent
      rw [he, show (n.mapOps f).events = [] from congrArg (List.map _) he, hs,
        show (n.mapOps f).scheduler = some (s.mapOps f) from congrArg (Option.map _) hs]
    | cons e events =>
      have hreact := s.react_mapOps hf e
      unfold takeEvent
      rw [hs, he, show (n.mapOps f).scheduler = some (s.mapOps f) from congrArg (Option.map _) hs,
        show (n.mapOps f).events = e.mapOps f :: events.map (Event.mapOps f) from
          congrArg (List.map _) he]
      dsimp only
      rcases hr : s.react e with x | p <;>
        rcases hr' : (s.mapOps f).react (e.mapOps f) with x' | p' <;> rw [hr, hr'] at hreact
      · have hstop := stop_mapOps f { n with events, scheduler := some s }
        refine congrArg (fun m => some (net, m)) ?_
        exact (congrArg (mapOps f) hstop).trans (mapOps_of_settled hf _)
      · cases hreact
      · cases hreact
      · obtain ⟨hsched, hreaction⟩ : p'.1.mapOps f = p.1.mapOps f ∧ p'.2.mapOps f = p.2.mapOps f :=
          Prod.mk.inj (Except.ok.inj hreact)
        have hnode : mapOps f { n.mapOps f with
              events := events.map (Event.mapOps f), scheduler := some p'.1 } =
            mapOps f { n with events, scheduler := some p.1 } := by
          simp [mapOps, hsched, show f ∘ f = f from hf]
        obtain ⟨hnet, hstarted⟩ := startAll_congr net hnode (congrArg Reaction.started hreaction)
        refine congrArg some (Prod.ext hnet ?_)
        have hpassed : (p'.2.mapOps f).passed = (p.2.mapOps f).passed := congrArg _ hreaction
        show (mapOps f _).pass (p'.2.mapOps f).passed = (mapOps f _).pass (p.2.mapOps f).passed
        rw [hstarted, hpassed]

/-! ## Everything that happens -/

/-- What happens to a rank whose operations are exchanged is what happens to the rank, up to the
exchange. -/
theorem undergo_mapOps {n : Node α} (hf : n.Blind f) (net : Cluster) (a : Happening α) :
    ((n.mapOps f).undergo net (a.mapOps f)).map (fun p => (p.1, p.2.mapOps f)) =
      (n.undergo net a).map fun p => (p.1, p.2.mapOps f) := by
  have hcall : ∀ {m m' : Node α}, m' = m.mapOps f →
      (some (net, m')).map (fun p => (p.1, p.2.mapOps f)) =
        (some (net, m)).map fun p => (p.1, p.2.mapOps f) := by
    rintro m - rfl
    rw [Option.map_some, Option.map_some, mapOps_of_settled hf.settled]
  have hown : ∀ {r r' : Option (Node α)}, r' = r.map (mapOps f) →
      (r'.map fun m => (net, m)).map (fun p => (p.1, p.2.mapOps f)) =
        (r.map fun m => (net, m)).map fun p => (p.1, p.2.mapOps f) := by
    rintro (_ | m) - rfl
    · rfl
    · exact hcall rfl
  cases a with
  | submit op device =>
    refine congrArg (fun m => some (net, m)) ?_
    exact (submitOn_congr (mapOps_of_settled hf.settled n) (hf.similar op)
      (congrFun hf.settled op) device).1
  | acquire h a => exact hcall (congrArg Prod.fst (acquire_mapOps f n h a))
  | release k =>
    show (if n.accessors.has k then some (net, (n.mapOps f).release k) else none).map _ =
      (if n.accessors.has k then some (net, n.release k) else none).map _
    split
    · exact hcall (release_mapOps f n k)
    · rfl
  | look k =>
    show ((n.held k).map fun c => (net, ((n.mapOps f).enter c).1)).map _ =
      ((n.held k).map fun c => (net, (n.enter c).1)).map _
    cases n.held k with
    | none => rfl
    | some c => exact hcall rfl
  | put k block =>
    refine hown ?_
    show (n.held k).bind (fun c => (n.mapOps f).enterWrite c block) =
      ((n.held k).bind fun c => n.enterWrite c block).map _
    cases n.held k with
    | none => rfl
    | some c => exact enterWrite_mapOps f n c block
  | wait => exact hcall (congrArg Prod.fst (wait_mapOps f n))
  | leave b => exact hcall rfl
  | transfer h t => exact hcall (congrArg Prod.fst (transfer_mapOps f n h t))
  | flush h => exact hcall (congrArg Prod.fst (flush_mapOps f n h))
  | retire hs tags => exact hcall (retire_mapOps f n hs tags)
  | take => exact takeEvent_mapOps hf.settled net n
  | work i => exact hown (runWork_mapOps hf i)
  | arrive i =>
    refine (congrArg (Option.map _) (takeArrival_mapOps f net n i)).trans ?_
    rw [Option.map_map]
    refine congrArg (fun g => (takeArrival net n i).map g) ?_
    funext p
    exact Prod.ext rfl (mapOps_of_settled hf.settled p.2)

end Node

end TiledTensor
