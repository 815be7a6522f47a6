import TiledTensor.Cluster
import TiledTensor.Op

/-!
# Tasks

What is submitted to the scheduler of a rank: computations, the two halves of a transfer, and
accessors, each with the buffers it uses. A task also has the events of its life, which the
scheduler takes one after the other.
-/

namespace TiledTensor

/-- The classes of devices that an operation can be submitted to. -/
inductive Device
  | cpu | accelerator
  deriving DecidableEq

def Device.text : Device → String
  | cpu => "Cpu" | accelerator => "Accelerator"

/-- Why a task was rejected or failed. -/
inductive TaskError
  | noCodelet (op : String) (device : Device)
  | noDevice (device : Device)
  /-- A written buffer occurs twice. -/
  | writtenTwice (h : HandleId)
  /-- A buffer that is read and written occurs twice. -/
  | updatedTwice (h : HandleId)
  | remoteWrite (rank : Rank) (h : HandleId) (owner : Rank)
  | notResident (h : HandleId) (owner rank : Rank)
  | acquireScratch
  | untagged (h : HandleId)
  | invalidRank (rank size : Nat)
  /-- The scheduler of the rank has stopped. -/
  | closed
  | transfer (name : String) (e : CommError)
  | payload (name : String) (expected got : Nat)
  deriving DecidableEq

/-- The wording of an error, given the names of the buffers. -/
def TaskError.text (name : HandleId → String) : TaskError → String
  | noCodelet op device => "no codelet for op " ++ op ++ " on device " ++ device.text
  | noDevice device => "no worker of device class " ++ device.text
  | writtenTwice h => "violation of write uniqueness rule: handle " ++ name h
  | updatedTwice h => "violation of read/write uniqueness rule: handle " ++ name h
  | remoteWrite rank h owner =>
    "rank " ++ rank.repr ++ " cannot write handle " ++ name h ++ " owned by rank " ++ owner.repr
  | notResident h owner rank =>
    "handle " ++ name h ++ " owned by rank " ++ owner.repr ++ " is not resident on rank "
      ++ rank.repr
  | acquireScratch => "scratch buffers cannot be acquired"
  | untagged h => "handle " ++ name h ++ " has no distributed tag"
  | invalidRank rank size =>
    "rank " ++ rank.repr ++ " out of range for a world of size " ++ size.repr
  | closed => "runtime is shut down"
  | transfer task e => task ++ " failed: " ++ e.text
  | payload task expected got =>
    task ++ ": expected " ++ expected.repr ++ " bytes, got " ++ got.repr

/-- What a task does once every earlier conflicting task has finished. -/
inductive Job (α : Type)
  | compute (op : Op α)
  | send (h : HandleId) (dst : Rank) (tag : Tag)
  | receive (h : HandleId) (src : Rank) (tag : Tag)
  /-- Free the memory of a copy. -/
  | evict (h : HandleId)
  /-- Grant the access that an accessor waits for. -/
  | grant
  | retire (tags : TagRange)
  /-- Nothing any more: the accessor was given up before its grant. -/
  | withdrawn

/-- A submitted task. -/
structure Task (α : Type) where
  id : TaskId
  name : String
  uses : List (HandleId × Access)
  job : Job α

/-- The number of a barrier, in the order in which barriers are called. -/
abbrev BarrierId := Nat

/-- What the scheduler is told. -/
inductive Event (α : Type)
  | submit (t : Task α)
  | complete (id : TaskId)
  /-- The task ended without producing its output. -/
  | fail (id : TaskId) (e : TaskError)
  | wait (b : BarrierId)

end TiledTensor
