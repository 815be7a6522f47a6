import TiledTensor.Node

/-!
# What a rank does by itself

Between the calls a rank takes events, runs computations and finishes receives. Each of these is one
step here, on the node and on the cluster that it exchanges messages with; in which order the steps
of several ranks happen is left to the caller.

A computation that faults ends all the same, and poisons the buffers that it was writing. Where the
scheduler itself has to open a poisoned buffer, it stops: whoever waits for something that it holds
is told that it is closed.
-/

namespace TiledTensor

namespace Node

variable {α : Type} [Scalar α]

/-! ## The end of the scheduler -/

/-- Closes the accessors of tasks that will not be started any more. -/
def close (n : Node α) (ids : List TaskId) : Node α :=
  let shut (a : Accessor) : Accessor :=
    if a.phase = .waiting then { a with phase := .closed } else a
  { n with accessors := ids.foldl (fun table id => table.adjust id shut) n.accessors }

/-- Stops the scheduler. Accessors and barriers that it holds are closed; events that it has not
taken yet stay where they are. -/
def stop (n : Node α) : Node α :=
  match n.scheduler with
  | none => n
  | some s =>
    let shut (table : Table BarrierId Barrier) (b : BarrierId) := table.adjust b fun _ => .closed
    { n with scheduler := none, barriers := s.waiters.foldl shut n.barriers }.close s.pending.keys

/-- Stops everything: the scheduler, the workers and the receives on their way. -/
def halt (net : Cluster) (n : Node α) : Cluster × Node α :=
  (n.arrivals.foldl (fun net a => net.forget a.ticket) net,
    { n.stop with work := [], arrivals := [] })

/-! ## Starting tasks -/

/-- Keeps a failure for the next barrier. -/
def note (n : Node α) (e : TaskError) : Node α :=
  { n with scheduler := n.scheduler.map (·.note e) }

/-- Starts a task. -/
def start (net : Cluster) (n : Node α) (t : Task α) : Cluster × Node α :=
  match t.job with
  | .compute op => (net, { n with work := n.work ++ [⟨t.id, op⟩] })
  | .send h dst tag =>
    match n.openHandle h with
    | (n, .error _) => (net, n.stop)
    | (n, .ok block) =>
      match net.send n.rank dst tag (Scalar.encodeBlock block) with
      | .ok net => (net, n.post (.complete t.id))
      | .error e => (net, (n.note (.transfer t.name e)).post (.complete t.id))
  | .receive h src tag =>
    let (net, ticket) := net.receive n.rank src tag
    (net, { n with arrivals := n.arrivals ++ [⟨t.id, t.name, h, ticket⟩] })
  | .evict h =>
    match (n.handle h).evict with
    | .ok e => (net, (n.setHandle h e).post (.complete t.id))
    | .error _ => (net, n.stop)
  | .grant =>
    if n.accessors.has t.id then
      (net, { n with accessors := n.accessors.adjust t.id fun a => { a with phase := .granted } })
    else (net, n.post (.complete t.id))
  | .retire tags => (net.retire n.rank tags, n.post (.complete t.id))
  | .withdrawn => (net, n.post (.complete t.id))

/-- Starts tasks in order. Once the scheduler has stopped the rest is lost. -/
def startAll (net : Cluster) (n : Node α) : List (Task α) → Cluster × Node α
  | [] => (net, n)
  | t :: tasks =>
    let (net, n) := start net n t
    if n.scheduler.isSome then startAll net n tasks
    else (net, n.close (tasks.map (·.id)))

/-- Lets barriers pass. Nothing is kept for a barrier that was given up. -/
def pass (n : Node α) (passed : List (BarrierId × Option TaskError)) : Node α :=
  let answer (table : Table BarrierId Barrier) (p : BarrierId × Option TaskError) :=
    table.adjust p.1 fun _ => .passed p.2
  { n with barriers := passed.foldl answer n.barriers }

/-! ## The steps of a rank -/

/-- Takes the oldest event. -/
def takeEvent (net : Cluster) (n : Node α) : Option (Cluster × Node α) :=
  match n.scheduler, n.events with
  | some s, e :: events =>
    let n := { n with events }
    match s.react e with
    | .error _ => some (net, n.stop)
    | .ok (s, r) =>
      let (net, n) := startAll net { n with scheduler := some s } r.started
      some (net, n.pass r.passed)
  | _, _ => none

/-- Opens the buffers of a computation in order. Where one cannot be opened, those opened for
writing before it are poisoned. Scratch memory is allocated in units of eight bytes.

All buffers are opened in one step here, though each has a lock of its own that somebody else may
hold. Nothing that is read or written depends on it: what conflicts does not run at the same time,
and memory reads as zeros whoever allocates it. Whether a lock can be had at all does depend on it;
`TiledTensor.Node.Locks` takes the locks one by one. -/
def openAll (n : Node α) : List Operand → Node α × Option (List (View α))
  | [] => (n, some [])
  | .scratch bytes :: operands =>
    if allocatable ((bytes + 7) / 8 * 8) then
      let (n, views) := openAll n operands
      (n, views.map (.scratch bytes :: ·))
    else (n, none)
  | .data h a :: operands =>
    match n.openHandle h with
    | (n, .error _) => (n, none)
    | (n, .ok block) =>
      match openAll n operands with
      | (n, some views) => (n, some ((if a.writes then .exclusive block else .shared block) :: views))
      | (n, none) => (if a.writes then n.setHandle h (n.handle h).poison else n, none)

/-- Stores what a computation left in the buffers that it may write. -/
def storeAll (n : Node α) : List Operand → List (View α) → Node α
  | .data h a :: operands, v :: views =>
    let n := match v with
      | .exclusive block => if a.writes then n.setHandle h ((n.handle h).store block) else n
      | _ => n
    n.storeAll operands views
  | _ :: operands, _ :: views => n.storeAll operands views
  | _, _ => n

/-- Poisons the buffers that a computation may write. -/
def poisonAll (n : Node α) (uses : List (HandleId × Access)) : Node α :=
  uses.foldl (fun n u => if u.2.writes then n.setHandle u.1 (n.handle u.1).poison else n) n

/-- Runs an operation on its buffers. -/
def run (n : Node α) (op : Op α) : Node α :=
  match n.openAll op.operands with
  | (n, none) => n
  | (n, some views) =>
    match op.codelet views with
    | .ok views => n.storeAll op.operands views
    | .error _ => n.poisonAll op.uses

/-- Runs the ready computation at position `i`. To open its buffers and to run it is one indivisible
step: a computation holds all of its locks before its codelet runs, and keeps them until it has run,
so nobody sees it half done. -/
def runWork (n : Node α) (i : Nat) : Option (Node α) :=
  match n.work[i]? with
  | none => none
  | some w => some (({ n with work := n.work.eraseIdx i }.run w.op).post (.complete w.id))

/-- Writes a received payload into its buffer. -/
def accept (n : Node α) (a : Arrival) (payload : Payload) :
    Node α × Except Fault (Option TaskError) :=
  match n.openHandle a.handle with
  | (n, .error f) => (n, .error f)
  | (n, .ok block) =>
    let expected := block.length * Scalar.size α
    if expected = payload.length then
      let e := (n.handle a.handle).store (Scalar.decodeBlock block.length payload)
      (n.setHandle a.handle e, .ok none)
    else (n, .ok (some (.payload a.name expected payload.length)))

/-- Gives up the copy that a failed receive was to make. -/
def abandon (n : Node α) (a : Arrival) (e : TaskError) : Node α :=
  let (copy, _) := (n.handle a.handle).flush n.rank
  match copy.evict with
  | .ok copy => (n.setHandle a.handle copy).post (.fail a.id e)
  | .error _ => n.setHandle a.handle copy

/-- Finishes a receive that has been answered. -/
def finish (n : Node α) (a : Arrival) : Receipt → Node α
  | .waiting => n
  | .refused e => n.abandon a (.transfer a.name e)
  | .delivered payload =>
    match n.accept a payload with
    | (n, .error _) => n
    | (n, .ok none) => n.post (.complete a.id)
    | (n, .ok (some e)) => n.abandon a e

/-- Finishes the receive at position `i`, if it has been answered. -/
def takeArrival (net : Cluster) (n : Node α) (i : Nat) : Option (Cluster × Node α) :=
  match n.arrivals[i]? with
  | none => none
  | some a =>
    match net.receipts.find? a.ticket with
    | none | some .waiting => none
    | some r => some (net.forget a.ticket,
        ({ n with arrivals := n.arrivals.eraseIdx i }).finish a r)

/-- The next step in the fixed order of this library: events before computations, computations
before receives, and the oldest of each. -/
def step (net : Cluster) (n : Node α) : Option (Cluster × Node α) :=
  (takeEvent net n).or <|
    ((n.runWork 0).map fun n => (net, n)).or <|
      (List.range n.arrivals.length).findSome? fun i => takeArrival net n i

/-! ## What is left to do

Every step lowers this number: an event that submits a task counts for more than the task waiting,
which counts for more than the task started, and that for more than its completion. -/

/-- How much can follow from an event. -/
def eventWeight : Event α → Nat
  | .submit _ => 4
  | _ => 1

/-- A bound on the number of steps that the rank can still make by itself. -/
def remaining (n : Node α) : Nat :=
  n.events.foldl (fun sum e => sum + eventWeight e) 0
    + 3 * (match n.scheduler with
      | some s => s.pending.length
      | none => 0)
    + 2 * n.work.length + 2 * n.arrivals.length

end Node

end TiledTensor
