import TiledTensor.Handle
import TiledTensor.Scheduler

/-!
# The runtime of a rank

A node is the runtime of one rank: its handles, its scheduler with the events on their way to it,
the computations that are ready to run, the receives on their way, and the accessors and barriers
that callers wait for.

The calls of this module run at once. They check, change what the rank knows about its handles, and
queue a task; nothing of the task is done before the scheduler takes it. Once the scheduler has
stopped every call that queues a task fails, after what it does before.
-/

namespace TiledTensor

/-- How far an accessor has come. -/
inductive Accessor.Phase
  | waiting
  /-- Access is granted and lasts until the accessor is given up. -/
  | granted
  /-- The scheduler stopped before the grant. -/
  | closed
  deriving DecidableEq

/-- Access to one buffer that a caller has asked for. -/
structure Accessor where
  handle : HandleId
  access : Access
  phase : Accessor.Phase := .waiting
  deriving DecidableEq

/-- How far a barrier has come. -/
inductive Barrier
  | waiting
  | passed (failure : Option TaskError)
  /-- The scheduler stopped before the barrier. -/
  | closed
  deriving DecidableEq

/-- A computation that is ready to run. -/
structure Work (α : Type) where
  id : TaskId
  op : Op α

/-- A receive on its way to a handle. -/
structure Arrival where
  id : TaskId
  name : String
  handle : HandleId
  ticket : Ticket
  deriving DecidableEq

/-- The runtime of one rank. -/
structure Node (α : Type) where
  rank : Rank
  /-- Number of ranks in the world. -/
  size : Nat
  /-- The names of the operations that the rank can run. -/
  codelets : List String
  handles : List (Handle α) := []
  /-- What the scheduler has not taken yet, oldest first. -/
  events : List (Event α) := []
  /-- The scheduler, until it stops. -/
  scheduler : Option (Scheduler α) := some {}
  work : List (Work α) := []
  arrivals : List Arrival := []
  accessors : Table TaskId Accessor := []
  barriers : Table BarrierId Barrier := []
  nextTask : TaskId := 0
  nextBarrier : BarrierId := 0

namespace Node

variable {α : Type} [Scalar α]

instance : Inhabited (Node α) := ⟨{ rank := 0, size := 0, codelets := [] }⟩

/-! ## Handles -/

def handle (n : Node α) (h : HandleId) : Handle α := n.handles.getD h default

def setHandle (n : Node α) (h : HandleId) (e : Handle α) : Node α :=
  { n with handles := n.handles.set h e }

/-- A new handle on this rank. -/
def addHandle (n : Node α) (e : Handle α) : Node α × HandleId :=
  ({ n with handles := n.handles ++ [e] }, n.handles.length)

/-- Opens a buffer and reads it. -/
def openHandle (n : Node α) (h : HandleId) : Node α × Except Fault (List α) :=
  let (e, block) := (n.handle h).access
  (n.setHandle h e, block)

/-! ## The way to the scheduler -/

/-- Sends the scheduler an event, if there is one to take it. -/
def post (n : Node α) (e : Event α) : Node α :=
  if n.scheduler.isSome then { n with events := n.events ++ [e] } else n

/-- Queues a task under the next number. -/
def enqueue (n : Node α) (name : String) (uses : List (HandleId × Access)) (job : Job α) :
    Node α × Except TaskError TaskId :=
  let id := n.nextTask
  let n := { n with nextTask := id + 1 }
  if n.scheduler.isSome then (n.post (.submit ⟨id, name, uses, job⟩), .ok id)
  else (n, .error .closed)

/-! ## Submission -/

/-- What is wrong with two buffers of one task. -/
def clash : Operand → Operand → Option TaskError
  | .data h a, .data k b =>
    if h ≠ k then none
    else if a = .write ∨ b = .write then some (.writtenTwice h)
    else if a = .readWrite ∨ b = .readWrite then some (.updatedTwice h)
    else none
  | _, _ => none

/-- The first pair of buffers that clash, pairs being taken in the order of their first and then of
their second buffer. -/
def firstClash : List Operand → Option TaskError
  | [] => none
  | x :: rest => (rest.findSome? (clash x)).or (firstClash rest)

/-- What keeps this rank from an access. -/
def obstacle (n : Node α) (h : HandleId) (a : Access) : Option TaskError :=
  let e := n.handle h
  if a = .scratch ∨ e.owner = n.rank then none
  else if a.writes then some (.remoteWrite n.rank h e.owner)
  else if e.state = .remoteCached then none
  else some (.notResident h e.owner n.rank)

/-- The first reason to reject an operation. -/
def rejection (n : Node α) (op : Op α) (device : Device) : Option TaskError :=
  match device with
  | .accelerator => some (.noDevice device)
  | .cpu =>
    if op.name ∈ n.codelets then
      (firstClash op.operands).or (op.uses.findSome? fun u => n.obstacle u.1 u.2)
    else some (.noCodelet op.name device)

/-- Notes a write to each buffer that is used for one. -/
def markWritten (n : Node α) (uses : List (HandleId × Access)) : Node α :=
  uses.foldl
    (fun n u => if u.2.writes then n.setHandle u.1 (n.handle u.1).markWritten else n) n

/-- Submits an operation to the workers of a device class. -/
def submitOn (n : Node α) (op : Op α) (device : Device) : Node α × Except TaskError Unit :=
  match n.rejection op device with
  | some e => (n, .error e)
  | none =>
    let (n, r) := (n.markWritten op.uses).enqueue op.name op.uses (.compute op)
    (n, r.map fun _ => ())

/-- Submits an operation to the processor. -/
def submit (n : Node α) (op : Op α) : Node α × Except TaskError Unit := n.submitOn op .cpu

/-! ## Accessors and barriers -/

/-- Asks for access to a buffer. The access is granted after every earlier conflicting task. -/
def acquire (n : Node α) (h : HandleId) (a : Access) : Node α × Except TaskError TaskId :=
  if a = .scratch then (n, .error .acquireScratch)
  else
    match n.obstacle h a with
    | some e => (n, .error e)
    | none =>
      match (n.markWritten [(h, a)]).enqueue "acquire" [(h, a)] .grant with
      | (n, .ok id) => ({ n with accessors := n.accessors.put id ⟨h, a, .waiting⟩ }, .ok id)
      | (n, .error e) => (n, .error e)

/-- Gives up an accessor, granted or not. -/
def release (n : Node α) (id : TaskId) : Node α :=
  { n with accessors := n.accessors.erase id }.post (.complete id)

/-- Calls a barrier, which is passed when everything that was submitted has finished. -/
def wait (n : Node α) : Node α × Except TaskError BarrierId :=
  if n.scheduler.isSome then
    let b := n.nextBarrier
    let n := { n with nextBarrier := b + 1, barriers := n.barriers.put b .waiting }
    (n.post (.wait b), .ok b)
  else (n, .error .closed)

/-- Gives up a barrier. The scheduler still answers it. -/
def leave (n : Node α) (b : BarrierId) : Node α := { n with barriers := n.barriers.erase b }

/-! ## Transfers -/

/-- Makes the present value of a buffer available on rank `target`. The target receives it, the
owner sends it, and every other rank does nothing. Neither half is queued again while the rank that
does it knows of a valid copy. -/
def transfer (n : Node α) (h : HandleId) (target : Rank) : Node α × Except TaskError Unit :=
  let e := n.handle h
  if n.size ≤ target then (n, .error (.invalidRank target n.size))
  else if e.owner = target then (n, .ok ())
  else
    match e.tag with
    | none => (n, .error (.untagged h))
    | some tag =>
      if n.rank = target then
        if e.state = .remoteCached then (n, .ok ())
        else
          let name := "recv " ++ tag.text ++ " from " ++ e.owner.repr
          let (n, r) := (n.setHandle h e.markCached).enqueue name [(h, .write)]
            (.receive h e.owner tag)
          (n, r.map fun _ => ())
      else if n.rank = e.owner then
        match e.markSent target with
        | (_, false) => (n, .ok ())
        | (e, true) =>
          let name := "send " ++ tag.text ++ " to " ++ target.repr
          let (n, r) := (n.setHandle h e).enqueue name [(h, .read)] (.send h target tag)
          (n, r.map fun _ => ())
      else (n, .ok ())

/-- Declares every copy of a buffer invalid. A rank that holds one frees it after its readers. -/
def flush (n : Node α) (h : HandleId) : Node α × Except TaskError Unit :=
  match (n.handle h).flush n.rank with
  | (e, false) => (n.setHandle h e, .ok ())
  | (e, true) =>
    let (n, r) := (n.setHandle h e).enqueue "evict" [(h, .write)] (.evict h)
    (n, r.map fun _ => ())

/-- Drops what the mailbox still holds under some tags, after every task on the given buffers. -/
def retire (n : Node α) (hs : List HandleId) (tags : TagRange) : Node α :=
  let name := "retire " ++ tags.first.text ++ ".." ++ tags.stop.text
  (n.enqueue name (hs.map fun h => (h, .write)) (.retire tags)).1

end Node

end TiledTensor
