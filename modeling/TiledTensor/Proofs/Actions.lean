import Mathlib.Logic.Function.Basic
import TiledTensor.Collective
import TiledTensor.Node.Accessor
import TiledTensor.World

/-!
# Runs

What can happen on a rank: a call that is accepted, something that the holder of an accessor does,
or a step of the rank by itself.  A *run* is any sequence of such actions.  In which order they come
is not fixed by anything, so what holds after every run holds for every schedule of the workers and
of the messages.

A call names buffers that exist, and no data buffer of an operation is declared as scratch memory.
-/

namespace TiledTensor

/-- Something that happens on a rank. -/
inductive Act (α : Type)
  | call (c : Call α)
  | acquire (h : HandleId) (a : Access)
  /-- The accessor is given up, granted or not. -/
  | release (id : TaskId)
  /-- The holder opens the buffer. -/
  | look (id : TaskId)
  /-- The holder opens the buffer and writes its first elements. -/
  | put (id : TaskId) (block : List α)
  /-- The scheduler takes an event. -/
  | take
  /-- A computation runs. -/
  | work (i : Nat)
  /-- A receive finishes. -/
  | arrive (i : Nat)

variable {α : Type}

namespace Node

/-- The buffers that a call names exist, and none that holds data is declared as scratch memory. -/
def knows (n : Node α) : Call α → Bool
  | .submit op => op.uses.all fun u => decide (u.1 < n.handles.length ∧ u.2 ≠ .scratch)
  | .transfer h _ | .flush h => decide (h < n.handles.length)

/-- The accessor with a given number, if it has been granted. -/
def held (n : Node α) (id : TaskId) : Option Accessor :=
  (n.accessors.find? id).filter fun a => decide (a.phase = .granted)

theorem held_eq_some_iff {n : Node α} {k : TaskId} {a : Accessor} :
    n.held k = some a ↔ n.accessors.find? k = some a ∧ a.phase = .granted := by
  unfold held
  rw [Option.filter_eq_some_iff, decide_eq_true_iff]

variable [Scalar α]

/-- The holder of an accessor opens the buffer and writes its first elements. -/
def enterWrite (n : Node α) (a : Accessor) (block : List α) : Option (Node α) :=
  match n.enter a with
  | (n, .ok _) => (n.write a block).toOption
  | (_, .error _) => none

/-- What an action does, if it is possible. Calls are possible if they are accepted. -/
def act (n : Node α) (net : Cluster) : Act α → Option (Cluster × Node α)
  | .call c =>
    if n.knows c then
      match n.call c with
      | (n, .ok ()) => some (net, n)
      | (_, .error _) => none
    else none
  | .acquire h a =>
    if h < n.handles.length then
      match n.acquire h a with
      | (n, .ok _) => some (net, n)
      | (_, .error _) => none
    else none
  | .release id => if n.accessors.has id then some (net, n.release id) else none
  | .look id => (n.held id).map fun a => (net, (n.enter a).1)
  | .put id block => ((n.held id).bind fun a => n.enterWrite a block).map fun n => (net, n)
  | .take => takeEvent net n
  | .work i => (n.runWork i).map fun n => (net, n)
  | .arrive i => takeArrival net n i

/-- What it takes for an action to be possible. -/
inductive Acts (n : Node α) (net : Cluster) : Act α → Cluster → Node α → Prop
  | submit {op n'} (bounds : ∀ u ∈ op.uses, u.1 < n.handles.length ∧ u.2 ≠ .scratch)
      (ok : n.submit op = (n', .ok ())) : Acts n net (.call (.submit op)) net n'
  | transfer {h target n'} (bound : h < n.handles.length)
      (ok : n.transfer h target = (n', .ok ())) : Acts n net (.call (.transfer h target)) net n'
  | flush {h n'} (bound : h < n.handles.length) (ok : n.flush h = (n', .ok ())) :
      Acts n net (.call (.flush h)) net n'
  | acquire {h a n' id} (bound : h < n.handles.length) (ok : n.acquire h a = (n', .ok id)) :
      Acts n net (.acquire h a) net n'
  | release {id a} (found : n.accessors.find? id = some a) :
      Acts n net (.release id) net (n.release id)
  | look {id a} (held : n.held id = some a) :
      Acts n net (.look id) net (n.openHandle a.handle).1
  | put {id a block n'} (held : n.held id = some a) (ok : n.enterWrite a block = some n') :
      Acts n net (.put id block) net n'
  | take {net' n'} (ok : takeEvent net n = some (net', n')) : Acts n net .take net' n'
  | work {i n'} (ok : n.runWork i = some n') : Acts n net (.work i) net n'
  | arrive {i net' n'} (ok : takeArrival net n i = some (net', n')) :
      Acts n net (.arrive i) net' n'

/-- A call that is possible is made, and it is accepted. -/
theorem call_of_act {n n' : Node α} {net net' : Cluster} {c : Call α}
    (h : n.act net (.call c) = some (net', n')) :
    n.knows c = true ∧ net' = net ∧ n.call c = (n', .ok ()) := by
  unfold act at h
  dsimp only at h
  split at h
  · rename_i hknows
    split at h
    · rename_i m hm
      cases h
      exact ⟨hknows, rfl, hm⟩
    · cases h
  · cases h

theorem acts_of_act {n n' : Node α} {net net' : Cluster} {a : Act α}
    (h : n.act net a = some (net', n')) : n.Acts net a net' n' := by
  cases a with
  | call c =>
    obtain ⟨hknows, rfl, hok⟩ := call_of_act h
    cases c with
    | submit op =>
      refine .submit ?_ hok
      intro u hu
      exact of_decide_eq_true (List.all_eq_true.mp hknows u hu)
    | transfer b target => exact .transfer (of_decide_eq_true hknows) hok
    | flush b => exact .flush (of_decide_eq_true hknows) hok
  | acquire b a =>
    unfold act at h
    dsimp only at h
    split at h
    · rename_i hb
      split at h
      · rename_i m id hm
        cases h
        exact .acquire hb hm
      · cases h
    · cases h
  | release id =>
    unfold act at h
    dsimp only at h
    split at h
    · rename_i hhas
      cases h
      obtain ⟨b, hb⟩ := Table.exists_find?_of_mem_keys (Table.has_iff.mp hhas)
      exact .release hb
    · cases h
  | look id =>
    obtain ⟨b, hb, heq⟩ := Option.map_eq_some_iff.mp h
    cases heq
    exact .look hb
  | put id block =>
    obtain ⟨m, hm, heq⟩ := Option.map_eq_some_iff.mp h
    cases heq
    obtain ⟨b, hb, hw⟩ := Option.bind_eq_some_iff.mp hm
    exact .put hb hw
  | take => exact .take h
  | work i =>
    obtain ⟨m, hm, heq⟩ := Option.map_eq_some_iff.mp h
    cases heq
    exact .work hm
  | arrive i => exact .arrive h

end Node

/-! ## Histories -/

/-- What a rank was asked for, with the blocks that the holders of its accessors have written. -/
inductive Entry (α : Type)
  | task (id : TaskId) (op : Op α)
  | guard (id : TaskId) (h : HandleId) (a : Access) (puts : List (List α))
  | transfer (h : HandleId) (target : Rank)
  | flush (h : HandleId)

namespace Entry

/-- The call is made by one rank for itself. -/
def Own : Entry α → Prop
  | task .. | guard .. => True
  | transfer .. | flush _ => False

/-- Another block is written by the holder of accessor `id`. -/
def put (id : TaskId) (block : List α) : Entry α → Entry α
  | guard k h a puts => if k = id then guard k h a (puts ++ [block]) else guard k h a puts
  | e => e

/-- Nothing but the blocks of one accessor changes. -/
theorem put_cases (id : TaskId) (block : List α) (e : Entry α) : e.put id block = e ∨
    ∃ h a puts, e = .guard id h a puts ∧ e.put id block = .guard id h a (puts ++ [block]) := by
  cases e with
  | guard k h a puts =>
    by_cases hk : k = id
    · subst hk
      exact Or.inr ⟨h, a, puts, rfl, if_pos rfl⟩
    · exact Or.inl (if_neg hk)
  | task k op => exact Or.inl rfl
  | transfer h target => exact Or.inl rfl
  | flush h => exact Or.inl rfl

theorem own_put {id : TaskId} {block : List α} {e : Entry α} : (e.put id block).Own ↔ e.Own := by
  rcases put_cases id block e with h | ⟨b, a, puts, rfl, h⟩
  · rw [h]
  · rw [h]
    exact Iff.rfl

end Entry

/-- The history of a rank with one more action on it. -/
def Act.record (n : Node α) (hist : List (Entry α)) : Act α → List (Entry α)
  | .call (.submit op) => hist ++ [.task n.nextTask op]
  | .call (.transfer h target) => hist ++ [.transfer h target]
  | .call (.flush h) => hist ++ [.flush h]
  | .acquire h a => hist ++ [.guard n.nextTask h a []]
  | .put id block => hist.map (Entry.put id block)
  | _ => hist

/-- The task with which an action may have done: the computation that runs, the receive that ends, or
the accessor that is given up. -/
def Act.Ends (n : Node α) (k : TaskId) : Act α → Prop
  | .release id => id = k
  | .work i => ∃ w, n.work[i]? = some w ∧ w.id = k
  | .arrive i => ∃ a, n.arrivals[i]? = some a ∧ a.id = k
  | _ => False

/-- What is done stays done, and some tasks may be done besides. -/
structure Gains (new done done' : TaskId → Prop) : Prop where
  kept : ∀ j, done j → done' j
  new : ∀ j, done' j → done j ∨ new j

theorem Gains.refl (new done : TaskId → Prop) : Gains new done done :=
  ⟨fun _ h => h, fun _ => Or.inl⟩

/-- One task is done besides. -/
theorem Gains.one (k : TaskId) (done : TaskId → Prop) :
    Gains (· = k) done fun j => done j ∨ j = k :=
  ⟨fun _ => Or.inl, fun _ h => h⟩

/-- What is asked of a rank stays in its history. -/
theorem Act.own_of_record {n : Node α} {hist : List (Entry α)} {a : Act α}
    (h : ∀ e ∈ a.record n hist, e.Own) : ∀ e ∈ hist, e.Own := by
  intro e he
  cases a with
  | put id block => exact Entry.own_put.mp (h _ (List.mem_map_of_mem he))
  | call c =>
    cases c with
    | submit op => exact h e (List.mem_append_left _ he)
    | transfer b target => exact h e (List.mem_append_left _ he)
    | flush b => exact h e (List.mem_append_left _ he)
  | acquire b a => exact h e (List.mem_append_left _ he)
  | release id => exact h e he
  | look id => exact h e he
  | take => exact h e he
  | work i => exact h e he
  | arrive i => exact h e he

/-- An operation in the history of a rank is new, or was there before. -/
theorem Act.task_of_record {n : Node α} {hist : List (Entry α)} (a : Act α) {id : TaskId} {op : Op α}
    (h : .task id op ∈ a.record n hist) : .task id op ∈ hist ∨ a = .call (.submit op) := by
  cases a with
  | put k block =>
    obtain ⟨e, he, heq⟩ := List.mem_map.mp h
    rcases e.put_cases k block with hput | ⟨b, c, puts, rfl, hput⟩
    · exact Or.inl (heq ▸ hput.symm ▸ he)
    · rw [hput] at heq
      cases heq
  | call c =>
    cases c with
    | submit f =>
      rcases List.mem_append.mp h with h | h
      · exact Or.inl h
      · obtain ⟨-, rfl⟩ := Entry.task.inj (List.mem_singleton.mp h)
        exact Or.inr rfl
    | transfer b target => exact Or.inl (by simpa [record] using h)
    | flush b => exact Or.inl (by simpa [record] using h)
  | acquire b c => exact Or.inl (by simpa [record] using h)
  | release k => exact Or.inl h
  | look k => exact Or.inl h
  | take => exact Or.inl h
  | work i => exact Or.inl h
  | arrive i => exact Or.inl h

variable [Scalar α]

/-- The runs of one rank, with their histories. -/
inductive Node.Run (net₀ : Cluster) (n₀ : Node α) : List (Entry α) → Cluster → Node α → Prop
  | nil : Run net₀ n₀ [] net₀ n₀
  | snoc {hist net n net' n'} (a : Act α) (run : Run net₀ n₀ hist net n)
      (step : n.act net a = some (net', n')) : Run net₀ n₀ (a.record n hist) net' n'

/-! ## Messages -/

/-- What a rank has sent, the receives that it has queued, and what they have brought, each in
order. -/
structure Mail where
  sent : List ((HandleId × Rank) × Payload) := []
  asked : List (HandleId × TaskId) := []
  taken : List (HandleId × TaskId × Payload) := []

/-- What is sent when a task is started. -/
def Node.posted (net : Cluster) (n : Node α) (t : Task α) : List ((HandleId × Rank) × Payload) :=
  match t.job with
  | .send h dst tag =>
    match (n.openHandle h).2 with
    | .ok block =>
      match net.send n.rank dst tag (Scalar.encodeBlock block) with
      | .ok _ => [((h, dst), Scalar.encodeBlock block)]
      | .error _ => []
    | .error _ => []
  | _ => []

/-- What is sent when tasks are started in order. -/
def Node.postedAll (net : Cluster) (n : Node α) : List (Task α) →
    List ((HandleId × Rank) × Payload)
  | [] => []
  | t :: tasks =>
    n.posted net t ++
      if (start net n t).2.scheduler.isSome then
        (start net n t).2.postedAll (start net n t).1 tasks
      else []

/-- The mail of a rank after one more action. -/
def Act.mail (net : Cluster) (n : Node α) (m : Mail) : Act α → Mail
  | .call (.transfer h target) =>
    -- the target of a transfer has queued a receive if it has queued anything
    if n.rank = target ∧ (n.transfer h target).1.nextTask ≠ n.nextTask then
      { m with asked := m.asked ++ [(h, n.nextTask)] }
    else m
  | .take =>
    match n.scheduler, n.events with
    | some s, e :: events =>
      match s.react e with
      | .ok (s, r) => { m with
          sent := m.sent ++ Node.postedAll net { n with events, scheduler := some s } r.started }
      | .error _ => m
    | _, _ => m
  | .arrive i =>
    match n.arrivals[i]? with
    | some a =>
      match net.receipts.find? a.ticket with
      | some (.delivered payload) => { m with taken := m.taken ++ [(a.handle, a.id, payload)] }
      | _ => m
    | none => m
  | _ => m

/-! ## Runs of a world -/

/-- What an action of one rank does to the world, if it is possible. -/
def World.act (w : World α) (r : Rank) (a : Act α) : Option (World α) :=
  if r < w.size then
    ((w.node r).act w.cluster a).map fun p => { w.setNode r p.2 with cluster := p.1 }
  else none

/-- The runs of a world, with the histories and the mail of all ranks: their actions in any
order. -/
inductive World.Run (w₀ : World α) : (Rank → List (Entry α)) → (Rank → Mail) → World α → Prop
  | nil : Run w₀ (fun _ => []) (fun _ => {}) w₀
  | snoc {hist mail w w'} (r : Rank) (a : Act α) (run : Run w₀ hist mail w)
      (step : w.act r a = some w') :
      Run w₀ (Function.update hist r (a.record (w.node r) (hist r)))
        (Function.update mail r (a.mail w.cluster (w.node r) (mail r))) w'

namespace World

/-- Lets ranks act one after the other, and keeps their histories and their mail. -/
def follow (hist : Rank → List (Entry α)) (mail : Rank → Mail) (w : World α) :
    List (Rank × Act α) → Option ((Rank → List (Entry α)) × (Rank → Mail) × World α)
  | [] => some (hist, mail, w)
  | (r, a) :: acts =>
    (w.act r a).bind fun w' =>
      w'.follow (Function.update hist r (a.record (w.node r) (hist r)))
        (Function.update mail r (a.mail w.cluster (w.node r) (mail r))) acts

theorem Run.follow {w₀ w w' : World α} {hist hist' : Rank → List (Entry α)}
    {mail mail' : Rank → Mail} {acts : List (Rank × Act α)} (run : w₀.Run hist mail w)
    (h : w.follow hist mail acts = some (hist', mail', w')) : w₀.Run hist' mail' w' := by
  induction acts generalizing hist mail w with
  | nil =>
    cases h
    exact run
  | cons p acts ih =>
    obtain ⟨w'', hact, hrest⟩ := Option.bind_eq_some_iff.mp h
    exact ih (run.snoc p.1 p.2 hact) hrest

end World

end TiledTensor
