import TiledTensor.Node.Accessor
import TiledTensor.Node.Progress

/-!
# Opening buffers one by one

Behind every handle stands a lock, for many readers or for one writer. A computation takes the locks
of its buffers one after the other, in the order of its operands, before its codelet runs, and
keeps them until it has run. A send, an eviction, a receive that has been answered and the holder of
an accessor take a lock each.

Memory is allocated when a buffer is first opened, also if it is opened for reading only. Whoever
opens a buffer looks first whether there is memory, under the lock for reading, and gives the lock
back. Where there was none it asks for the lock for writing, allocates, and gives the lock back
again. Then it takes the lock that it keeps.

Whether a reader has to wait behind a writer that waits for readers to leave is up to the lock.
Both kinds are modelled (`gives`).

The steps of `TiledTensor.Node.Progress` open all buffers of a task at once. They are the steps of
this file in which nobody else comes between, and nothing that a task reads or writes depends on
whether somebody does: no codelet runs before all locks of its task are held. Only here can a task
be blocked by another while it holds locks itself.
-/

namespace TiledTensor

/-- Who opens buffers. -/
inductive Opener
  /-- A worker, for a computation. -/
  | worker
  /-- The scheduler, for a send or an eviction. -/
  | scheduler
  /-- A receive that has been answered. -/
  | receiver
  /-- A caller whose accessor has been granted. -/
  | holder
  deriving DecidableEq

/-- What is done next to open a buffer. -/
inductive Opening.Phase
  /-- To look whether there is memory. -/
  | look
  /-- There was none; the lock for writing has not been asked for yet. -/
  | missed
  /-- To take the lock for writing and allocate. -/
  | allocate
  /-- To take the lock that is kept. -/
  | enter
  /-- Nothing: the buffer cannot be opened. -/
  | failed
  deriving DecidableEq

/-- The buffers of a task that are being opened. -/
structure Opening where
  opener : Opener
  id : TaskId
  operands : List Operand
  /-- How many of the operands are open. -/
  opened : Nat := 0
  phase : Opening.Phase := .look
  deriving DecidableEq

namespace Opening

/-- The locks that are held, and what for. -/
def held (o : Opening) : List (HandleId × Access) :=
  (o.operands.take o.opened).filterMap Operand.use?

/-- All operands are open. -/
def full (o : Opening) : Bool := decide (o.operands.length ≤ o.opened)

/-- There is nothing left to open, or no use in going on. -/
def ended (o : Opening) : Bool := o.full || decide (o.phase = .failed)

/-- The lock that is asked for next, and whether for writing. -/
def asks (o : Opening) : Option (HandleId × Bool) :=
  match o.operands[o.opened]?, o.phase with
  | some (.data h _), .look => some (h, false)
  | some (.data h _), .allocate => some (h, true)
  | some (.data h a), .enter => some (h, a.writes)
  | _, _ => none

/-- A lock can be had beside the locks that are held here. Where readers give way they also wait for
whoever asks for the lock for writing. -/
def admits (gives : Bool) (o : Opening) : HandleId × Bool → Bool
  | (h, true) => o.held.all fun u => decide (u.1 ≠ h)
  | (h, false) => (o.held.all fun u => decide (u.1 = h → u.2.writes = false)) &&
      !(gives && decide (o.asks = some (h, true)))

/-- The next operand is open. -/
def advance (o : Opening) : Opening := { o with opened := o.opened + 1, phase := .look }

/-- Does what is next, once the lock that is asked for can be had. -/
def step {α : Type} [Scalar α] (n : Node α) (o : Opening) : Node α × Opening :=
  match o.operands[o.opened]? with
  | none => (n, o)
  | some (.scratch bytes) =>
    if allocatable ((bytes + 7) / 8 * 8) then (n, o.advance) else (n, { o with phase := .failed })
  | some (.data h _) =>
    match o.phase with
    | .look =>
      match (n.handle h).memory with
      | .absent => (n, { o with phase := .missed })
      | .present _ => (n, { o with phase := .enter })
      | .poisoned => (n, { o with phase := .failed })
    | .missed => (n, { o with phase := .allocate })
    | .allocate =>
      match n.openHandle h with
      | (n, .ok _) => (n, { o with phase := .enter })
      | (n, .error _) => (n, { o with phase := .failed })
    | .enter =>
      match (n.handle h).memory with
      | .poisoned => (n, { o with phase := .failed })
      | _ => (n, o.advance)
    | .failed => (n, o)

end Opening

/-- A rank with the buffers that are being opened on it. -/
structure Station (α : Type) where
  node : Node α
  /-- The number of workers besides the first one. -/
  more : Nat := 0
  /-- What the scheduler has to start before it takes the next event. -/
  starting : List (Task α) := []
  openings : List Opening := []

namespace Station

variable {α : Type} [Scalar α]

instance : Inhabited (Station α) := ⟨{ node := default }⟩

/-! ## Opening -/

/-- A lock can be had. -/
def free (gives : Bool) (s : Station α) (l : HandleId × Bool) : Bool :=
  s.openings.all (·.admits gives l)

/-- What an opener has to open: for the computation or the receive at some position, for the next
task to start, or for the accessor with some number. A copy that a failed receive was to make is
freed, as by an eviction; no memory is allocated for that. -/
def opening (net : Cluster) (s : Station α) : Opener → Nat → Option Opening
  | .worker, i => (s.node.work[i]?).map fun w => ⟨.worker, w.id, w.op.operands, 0, .look⟩
  | .scheduler, _ =>
    match s.starting with
    | ⟨id, _, _, .send h _ _⟩ :: _ => some ⟨.scheduler, id, [.data h .read], 0, .look⟩
    | ⟨id, _, _, .evict h⟩ :: _ => some ⟨.scheduler, id, [.data h .write], 0, .enter⟩
    | _ => none
  | .receiver, i =>
    (s.node.arrivals[i]?).bind fun a =>
      match net.receipts.find? a.ticket with
      | some (.delivered _) => some ⟨.receiver, a.id, [.data a.handle .write], 0, .look⟩
      | some (.refused _) => some ⟨.receiver, a.id, [.data a.handle .write], 0, .enter⟩
      | some .waiting | none => none
  | .holder, id =>
    match s.node.accessors.find? id with
    | some ⟨h, a, .granted⟩ => some ⟨.holder, id, [.data h a], 0, .look⟩
    | _ => none

/-- An opener is not busy with something else. -/
def ready (s : Station α) : Opener → Bool
  | .worker => decide ((s.openings.filter fun o => o.opener = .worker).length ≤ s.more)
  | _ => true

/-- Begins to open what has not been begun yet. -/
def begin (net : Cluster) (s : Station α) (c : Opener) (i : Nat) : Option (Station α) :=
  match s.opening net c i with
  | none => none
  | some o =>
    if s.ready c && decide (o.id ∉ s.openings.map (·.id)) then
      some { s with openings := s.openings ++ [o] }
    else none

/-- Opens on where the lock that is asked for can be had. -/
def lock (gives : Bool) (s : Station α) (i : Nat) : Option (Station α) :=
  match s.openings[i]? with
  | none => none
  | some o =>
    if !o.ended && o.asks.all (s.free gives) then
      some { s with node := (o.step s.node).1, openings := s.openings.set i (o.step s.node).2 }
    else none

/-! ## Tasks -/

/-- The scheduler takes the oldest event. Barriers pass only where there is nothing to start. -/
def take (s : Station α) : Option (Station α) :=
  match s.starting, s.node.scheduler, s.node.events with
  | [], some scheduler, e :: events =>
    let n := { s.node with events }
    match scheduler.react e with
    | .error _ => some { s with node := n.stop }
    | .ok (scheduler, r) => some { s with
        node := ({ n with scheduler := some scheduler } : Node α).pass r.passed
        starting := r.started }
  | _, _, _ => none

/-- Goes on after a task has been started. Once the scheduler has stopped the rest is lost. -/
def resume (s : Station α) (n : Node α) (rest : List (Task α)) : Station α :=
  if n.scheduler.isSome then { s with node := n, starting := rest }
  else { s with node := n.close (rest.map (·.id)), starting := [] }

/-- The scheduler starts the next task. -/
def startNext (net : Cluster) (s : Station α) : Option (Cluster × Station α) :=
  match s.starting with
  | [] => none
  | t :: rest =>
    some ((Node.start net s.node t).1, s.resume (Node.start net s.node t).2 rest)

/-- The scheduler starts a task that opens no buffer. -/
def start (net : Cluster) (s : Station α) : Option (Cluster × Station α) :=
  if (s.opening net .scheduler 0).isNone then s.startNext net else none

/-- Does what the buffers were opened for, and gives the locks back. Whoever holds an accessor keeps
it, unless its buffer could not be opened. -/
def finish (net : Cluster) (s : Station α) (i : Nat) : Option (Cluster × Station α) :=
  match s.openings[i]? with
  | none => none
  | some o =>
    let s' := { s with openings := s.openings.eraseIdx i }
    if o.ended then
      match o.opener with
      | .worker =>
        (s.node.runWork (s.node.work.findIdx fun w => w.id == o.id)).map fun n =>
          (net, { s' with node := n })
      | .scheduler => s'.startNext net
      | .receiver =>
        (Node.takeArrival net s.node (s.node.arrivals.findIdx fun a => a.id == o.id)).map
          fun (net, n) => (net, { s' with node := n })
      | .holder =>
        if o.full then none else some (net, { s' with node := s.node.release o.id })
    else none

end Station

end TiledTensor
