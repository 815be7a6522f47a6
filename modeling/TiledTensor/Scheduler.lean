import TiledTensor.Task

/-!
# The scheduler

The scheduler of a rank owns the graph of unfinished tasks. It takes one event at a time and answers
with the tasks that are to be started and the barriers that are passed.

A task is started when the graph says that no unfinished task comes before it. An accessor that is
given up while it still waits keeps its place in the graph and is started as a task that does
nothing. Barriers are passed when no task is left; the first failure since a failure was last
handed out goes to the first of them.
-/

namespace TiledTensor

/-- The state of a scheduler. -/
structure Scheduler (α : Type) where
  graph : TaskGraph := {}
  /-- The tasks that wait for others. -/
  pending : Table TaskId (Task α) := []
  /-- The barriers that have not been passed, in the order of their calls. -/
  waiters : List BarrierId := []
  /-- The first failure that no barrier has been told of. -/
  failure : Option TaskError := none

/-- What follows from an event. -/
structure Reaction (α : Type) where
  /-- The tasks to start, in this order. -/
  started : List (Task α) := []
  /-- The barriers that are passed, each with the failure that it reports. -/
  passed : List (BarrierId × Option TaskError) := []

namespace Scheduler

variable {α : Type}

instance : Inhabited (Scheduler α) := ⟨{}⟩

/-- Keeps a failure until a barrier reports it. Only the first one is kept. -/
def note (s : Scheduler α) (e : TaskError) : Scheduler α :=
  { s with failure := s.failure.or (some e) }

/-- The answers of a list of barriers: the first one reports the failure. -/
def answers (failure : Option TaskError) : List BarrierId → List (BarrierId × Option TaskError)
  | [] => []
  | b :: bs => (b, failure) :: bs.map fun b => (b, none)

/-- Lets all barriers pass if no task is left. -/
def settle (s : Scheduler α) (started : List (Task α)) : Scheduler α × Reaction α :=
  if s.graph.isEmpty then
    ({ s with waiters := [], failure := if s.waiters.isEmpty then s.failure else none },
      { started, passed := answers s.failure s.waiters })
  else (s, { started })

/-- Takes the tasks with given numbers out of those that wait. -/
def unpark (pending : Table TaskId (Task α)) : List TaskId → List (Task α) × Table TaskId (Task α)
  | [] => ([], pending)
  | id :: ids =>
    match pending.find? id with
    | none => unpark pending ids
    | some t =>
      let (tasks, rest) := unpark (pending.erase id) ids
      (t :: tasks, rest)

def submit (s : Scheduler α) (t : Task α) : Scheduler α × Reaction α :=
  let (graph, ready) := s.graph.insert t.id t.uses
  if ready then ({ s with graph }, { started := [t] })
  else ({ s with graph, pending := s.pending.put t.id t }, {})

/-- A task has finished, or its accessor was given up before it was started. -/
def complete (s : Scheduler α) (id : TaskId) : Except Fault (Scheduler α × Reaction α) :=
  match s.pending.find? id with
  | some t => .ok ({ s with pending := s.pending.put id { t with job := .withdrawn } }, {})
  | none => do
    let (graph, ready) ← s.graph.complete id
    let (tasks, pending) := unpark s.pending ready
    return settle { s with graph, pending } tasks

/-- Takes one event. -/
def react (s : Scheduler α) : Event α → Except Fault (Scheduler α × Reaction α)
  | .submit t => .ok (s.submit t)
  | .complete id => s.complete id
  | .fail id e => (s.note e).complete id
  | .wait b => .ok (settle { s with waiters := s.waiters ++ [b] } [])

end Scheduler

end TiledTensor
