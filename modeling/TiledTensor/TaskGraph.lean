import TiledTensor.Access
import TiledTensor.Fault
import TiledTensor.Table

/-!
# The graph of unfinished tasks

Tasks are ordered by the buffers they share. A read waits for the last writer of its buffer; a
write waits for the last writer and for every reader since. Only these edges are kept, as a count
of unfinished predecessors with each task and a list of successors with each predecessor. Scratch
memory makes no edges.
-/

namespace TiledTensor

/-- The number of a task, in the order of submission. -/
abbrev TaskId := Nat

/-- The number of a buffer on its rank. -/
abbrev HandleId := Nat

/-- An unfinished task. -/
structure TaskGraph.Node where
  /-- Number of unfinished tasks that this one waits for. -/
  waiting : Nat
  /-- The tasks that wait for this one, in the order of their submission. -/
  dependents : List TaskId
  /-- The buffers that the task uses, scratch memory apart. -/
  handles : List HandleId
  deriving DecidableEq

/-- The unfinished tasks that last used a buffer. -/
structure TaskGraph.Usage where
  writer : Option TaskId := none
  /-- The readers since the writer. -/
  readers : List TaskId := []
  deriving DecidableEq

/-- Unfinished tasks and the users of each buffer. -/
structure TaskGraph where
  nodes : Table TaskId TaskGraph.Node := []
  usage : Table HandleId TaskGraph.Usage := []
  deriving DecidableEq

namespace TaskGraph

instance : Inhabited TaskGraph := ⟨{}⟩

/-- Number of unfinished tasks. -/
def size (g : TaskGraph) : Nat := g.nodes.length

def isEmpty (g : TaskGraph) : Bool := g.nodes.isEmpty

def contains (g : TaskGraph) (id : TaskId) : Bool := g.nodes.has id

/-- The tasks that an access comes after, and the users of its buffer from then on. -/
def Usage.access (u : Usage) (id : TaskId) (a : Access) : List TaskId × Usage :=
  match a with
  | .read => (u.writer.toList, { u with readers := u.readers ++ [id] })
  | _ => (u.writer.toList ++ u.readers, ⟨some id, []⟩)

/-- Enters the accesses of a task into the usage table and collects, access by access, the tasks
that it comes after. -/
def record (id : TaskId) : Table HandleId Usage → List (HandleId × Access) →
    List TaskId × Table HandleId Usage
  | usage, [] => ([], usage)
  | usage, (_, .scratch) :: accesses => record id usage accesses
  | usage, (h, a) :: accesses =>
    let (before, u) := ((usage.find? h).getD {}).access id a
    let (rest, usage) := record id (usage.put h u) accesses
    (before ++ rest, usage)

/-- The buffers of a list of accesses, scratch memory apart. -/
def touched (accesses : List (HandleId × Access)) : List HandleId :=
  (accesses.filter fun e => decide (e.2 ≠ .scratch)).map (·.1)

/-- Adds a task after every task inserted before it. The answer tells whether it can run at
once. -/
def insert (g : TaskGraph) (id : TaskId) (accesses : List (HandleId × Access)) :
    TaskGraph × Bool :=
  let (before, usage) := record id g.usage accesses
  let deps := (before.filter fun d => decide (d ≠ id)).eraseDups.filter g.contains
  let nodes := deps.foldl
    (fun nodes d => nodes.adjust d fun n => { n with dependents := n.dependents ++ [id] }) g.nodes
  (⟨nodes.put id ⟨deps.length, [], touched accesses⟩, usage⟩, deps.isEmpty)

/-- Takes a finished task out of the users of a buffer. A buffer without users leaves the
table. -/
def release (id : TaskId) (usage : Table HandleId Usage) (h : HandleId) : Table HandleId Usage :=
  match usage.find? h with
  | none => usage
  | some u =>
    let u : Usage :=
      ⟨if u.writer = some id then none else u.writer, u.readers.filter fun r => decide (r ≠ id)⟩
    if u = {} then usage.erase h else usage.put h u

/-- Tells the dependents of a finished task, one after the other, that they wait for one task
less. The answer lists those that wait for none any more. -/
def awaken : Table TaskId Node → List TaskId → Except Fault (Table TaskId Node × List TaskId)
  | nodes, [] => .ok (nodes, [])
  | nodes, d :: dependents =>
    match nodes.find? d with
    | none => awaken nodes dependents
    | some ⟨0, _, _⟩ => .error .overflow
    | some ⟨n + 1, successors, handles⟩ => do
      let (nodes, ready) ← awaken (nodes.put d ⟨n, successors, handles⟩) dependents
      return (nodes, if n = 0 then d :: ready else ready)

/-- Removes a finished task. The answer lists the tasks that can run from now on, in the order of
their submission. A task that still waits for others has not run and stays where it is. -/
def complete (g : TaskGraph) (id : TaskId) : Except Fault (TaskGraph × List TaskId) :=
  match g.nodes.find? id with
  | some ⟨0, dependents, handles⟩ => do
    let usage := handles.eraseDups.foldl (release id) g.usage
    let (nodes, ready) ← awaken (g.nodes.erase id) dependents
    return (⟨nodes, usage⟩, ready)
  | _ => .ok (g, [])

end TaskGraph

end TiledTensor
