import TiledTensor.Collective
import TiledTensor.Node.Accessor
import TiledTensor.World

/-!
# Sessions

A session works on a world through names: each rank has its objects, the guards it holds, and calls
in progress. This module has the state of a session, the commands it takes and the replies it gives;
`TiledTensor.Session.Commands` carries out the commands and `TiledTensor.Session.Run` lets the world
run between them.
-/

namespace TiledTensor

/-- The name of a tile: of a tile by itself, or of one tile of a tensor. -/
structure TileRef where
  object : String
  number : Option Nat := none
  deriving DecidableEq

def TileRef.text (r : TileRef) : String :=
  match r.number with
  | none => r.object
  | some n => r.object ++ "#" ++ n.repr

/-- What a name of a rank stands for. -/
inductive Object
  | tile (t : Tile)
  | tensor (t : Tensor)

namespace Object

/-- The tiles of an object with the numbers that they are named by. -/
def tiles : Object → List (Option Nat × Tile)
  | tile t => [(none, t)]
  | tensor t => t.tiles.zipIdx.map fun p => (some p.2, p.1)

/-- One of the tiles of an object. -/
def tile? : Object → Option Nat → Option Tile
  | tile t, none => some t
  | tensor t, some n => t.tiles[n]?
  | _, _ => none

end Object

/-- Access to a tile, held under a name. -/
structure Guard where
  rank : Rank
  name : String
  id : TaskId
  accessor : Accessor
  layout : Layout
  /-- The elements are addressed by their offset and not by their coordinates. -/
  raw : Bool

/-- What a call in progress waits for, and what it does then. -/
inductive Errand (α : Type)
  | write (id : TaskId) (data : List α)
  | read (id : TaskId)
  /-- Hold the access as a guard with a name. -/
  | hold (id : TaskId) (name : String) (layout : Layout) (raw : Bool)
  | barrier (b : BarrierId)
  | message (t : Ticket)

/-- A call in progress. -/
structure Pending (α : Type) where
  rank : Rank
  label : String
  errand : Errand α

/-- What can be seen of the memory of a tile. -/
inductive MemoryStatus
  | absent | present | poisoned
  deriving DecidableEq

def Memory.status {α : Type} : Memory α → MemoryStatus
  | .absent => .absent
  | .present _ => .present
  | .poisoned => .poisoned

/-- What can be seen of a tile. -/
structure Sight where
  state : Coherence := .uninitialized
  memory : MemoryStatus := .absent
  deriving DecidableEq

/-- The state of a session. -/
structure Session (α : Type) where
  world : World α
  workers : Nat
  lastTags : List Tag
  objects : Table (Rank × String) Object := []
  guards : List Guard := []
  pending : List (Pending α) := []
  /-- What was last seen of each tile. -/
  seen : Table (Rank × String × Option Nat) Sight := []

/-! ## Commands -/

/-- What a tensor is filled with: one value, or the linear index of each element plus a number. -/
inductive Filling (α : Type)
  | value (x : α)
  | counted (base : Nat)

/-- A buffer of a hand-made operation. -/
inductive OperandRef
  | data (t : TileRef) (access : Access)
  | scratch (bytes : Nat)

/-- A hand-made operation. -/
inductive OpSpec
  | copy
  | clear
  | subBox (b : SubBox)
  | mix (c : Nat)
  /-- An operation that nobody has a codelet for. -/
  | bare (name : String)

/-- A command to one rank. -/
inductive Command (α : Type)
  | tensor (name : String) (shape basetile : Shape) (owners : Option (List Rank))
      (tag : Option Tag)
  | tile (name : String) (shape : Shape) (data : Option (List α))
  | drop (name : String)
  | rankInfo
  | info (name : String)
  | tileInfo (t : TileRef)
  | tileQuery (name : String) (n : Nat)
  | fill (name : String) (filling : Filling α)
  | dump (name : String)
  | write (t : TileRef) (data : List α) (access : Access) (label : Option String)
  | read (t : TileRef) (label : Option String)
  | acquire (guard : String) (t : TileRef) (access : Access) (raw : Bool)
  | guardRead (guard : String)
  | guardGet (guard : String) (i : Index)
  | guardSet (guard : String) (i : Index) (x : α)
  | release (label : String)
  | copyTo (src dst : String)
  | gather (src dst : String)
  | scatter (src dst : String)
  | copyIntersection (src : String) (srcAt : Index) (dst : String) (dstAt : Index)
  | clear (name : String)
  | copyTile (src : TileRef) (srcAt : Index) (dst : TileRef) (dstAt : Index)
  | task (op : OpSpec) (operands : List OperandRef) (device : Device)
  | transfer (t : TileRef) (target : Rank)
  | flush (t : TileRef)
  | retire (ts : List TileRef) (tags : TagRange)
  | wait (label : Option String)
  | send (dst : Rank) (tag : Tag) (payload : Payload)
  | receive (src : Rank) (tag : Tag) (label : Option String)

/-- One step of a session. -/
inductive Step (α : Type)
  /-- The same command to some ranks, or to all of them. -/
  | each (ranks : Option (List Rank)) (c : Command α)
  /-- Several steps with nothing running in between. -/
  | batch (steps : List (Step α))
  | halt

/-! ## Replies -/

/-- A failure with its wording. -/
structure Complaint where
  failure : Failure
  text : Option String

/-- What a handle is known by. -/
structure HandleReport where
  tag : Option Tag
  owner : Rank
  count : Nat
  bytes : Except Fault Nat
  state : Coherence

/-- A tile of a tensor. -/
structure TileReport where
  layout : Layout
  start : Except Fault Index
  owner : Rank
  isLocal : Bool
  handle : HandleReport

/-- A tensor. -/
structure TensorReport where
  shape : Shape
  grid : Shape
  rank : Rank
  owners : List Rank
  tag : Tag
  tiles : List TileReport

/-- Facts about a tile that is asked for by its number. -/
structure TileAnswers where
  start : Except Fault Index
  owner : Except Fault Rank
  isLocal : Except Fault Bool
  shape : Except Fault Shape
  handleCount : Except Fault Nat
  count : Except Fault Nat

/-- What a rank replies to a command. -/
inductive Reply (α : Type)
  | ok
  /-- A call is in progress. -/
  | started
  | failed (c : Complaint)
  | list (rs : List (Reply α))
  | made (tag last : Tag) (tiles : Nat)
  | refused (c : Complaint) (last : Tag)
  | dropped (existed : Bool)
  | rankInfo (rank : Rank) (size workers : Nat) (last : Tag)
  | tensorInfo (t : TensorReport)
  | tileInfo (layout : Layout) (owner : Rank) (handle : HandleReport)
  | tileAnswers (a : TileAnswers)
  | elements (xs : List α)
  | rawElements (writable : Bool) (xs : List α)
  | element (x : α)
  | notHeld
  | released (guards calls : Nat)
  /-- The command names something that does not exist. -/
  | misused

/-- What a call in progress resolves to. -/
inductive Outcome (α : Type)
  | ok
  | granted
  | elements (xs : List α)
  | bytes (bs : Payload)
  | failed (c : Complaint)

/-- A call that has finished. -/
structure Resolved (α : Type) where
  rank : Rank
  label : String
  outcome : Outcome α

/-- A tile that looks different from before. -/
structure Change where
  rank : Rank
  tile : TileRef
  sight : Sight

/-- What the ranks replied to one step. -/
inductive StepReply (α : Type)
  | each (rs : List (Reply α))
  | batch (rs : List (StepReply α))
  | halted

/-- A step of a session and what followed from it. -/
structure Report (α : Type) where
  reply : StepReply α
  resolved : List (Resolved α)
  changed : List Change

namespace Session

variable {α : Type} [Scalar α]

/-- A session on a new world. -/
def new (size workers : Nat) (codelets : List String) (last : Tag)
    (severed : List (Rank × Rank)) : Session α where
  world := .new size codelets severed
  workers := max workers 1
  lastTags := List.replicate size last

def lastTag (s : Session α) (r : Rank) : Tag := s.lastTags.getD r ⟨0⟩

def setLastTag (s : Session α) (r : Rank) (t : Tag) : Session α :=
  { s with lastTags := s.lastTags.set r t }

def node (s : Session α) (r : Rank) : Node α := s.world.node r

def setNode (s : Session α) (r : Rank) (n : Node α) : Session α :=
  { s with world := s.world.setNode r n }

def setCluster (s : Session α) (net : Cluster) : Session α :=
  { s with world := { s.world with cluster := net } }

def object? (s : Session α) (r : Rank) (name : String) : Option Object := s.objects.find? (r, name)

def tensor? (s : Session α) (r : Rank) (name : String) : Option Tensor :=
  match s.object? r name with
  | some (.tensor t) => some t
  | _ => none

def tile? (s : Session α) (r : Rank) (t : TileRef) : Option Tile := do
  (← s.object? r t.object).tile? t.number

/-- The name of the tile with a given handle on a rank. -/
def handleName (s : Session α) (r : Rank) (h : HandleId) : String :=
  let named := s.objects.findSome? fun e =>
    if e.1.1 = r then
      (e.2.tiles.find? fun p => decide (p.2.handle = h)).map fun p => TileRef.text ⟨e.1.2, p.1⟩
    else none
  named.getD ""

/-- A failure in the words of the names of a rank. -/
def complain (s : Session α) (r : Rank) (e : Failure) : Complaint := ⟨e, e.text (s.handleName r)⟩

def failed (s : Session α) (r : Rank) (e : Failure) : Reply α := .failed (s.complain r e)

end Session

end TiledTensor
