import TiledTensor.Element
import TiledTensor.Tag
import TiledTensor.Word

/-!
# Buffers and their coherence

A handle is one rank's view of the buffer of a tile. One rank owns the buffer and alone may write
it; the others hold copies that the owner sent them. Memory is allocated, as zeros, when the buffer
is first opened.

The state of a handle is what its rank knows. The owner knows whether it has written since it last
told all ranks to drop their copies, and to which ranks it has sent the present value; every other
rank knows whether it holds a copy, or is about to.
-/

namespace TiledTensor

/-- What a rank knows about the value of a buffer. -/
inductive Coherence
  /-- Never written on the owner, or no valid copy elsewhere. -/
  | uninitialized
  /-- Written on the owner since the last flush. -/
  | localValid
  /-- Flushed on the owner since the last write. -/
  | globallyVisible
  /-- A copy received from the owner, or one that is on its way. -/
  | remoteCached
  deriving DecidableEq

def Coherence.text : Coherence → String
  | uninitialized => "Uninitialized"
  | localValid => "LocalValid"
  | globallyVisible => "GloballyVisible"
  | remoteCached => "RemoteCached"

/-- A block of memory of this size can be allocated: it may take up less than half of the addresses
that a word can name. -/
def allocatable (bytes : Nat) : Bool := decide (2 * bytes < Word.limit)

/-- The memory behind a handle. -/
inductive Memory (α : Type)
  | absent
  | present (block : List α)
  /-- A computation faulted while it wrote the buffer; nothing can open it any more. -/
  | poisoned
  deriving DecidableEq

/-- One rank's view of the buffer of a tile. -/
structure Handle (α : Type) where
  /-- The name of the buffer that all ranks agree on, if it takes part in transfers. -/
  tag : Option Tag
  owner : Rank
  /-- Number of elements. -/
  count : Nat
  memory : Memory α := .absent
  state : Coherence := .uninitialized
  /-- The ranks that the owner has sent the present value to. -/
  sent : List Rank := []

/-- The elements of `new` in place of the first elements of `old`, as far as both reach. -/
def overlay {α : Type} (new old : List α) : List α :=
  new.take old.length ++ old.drop new.length

/-- A block that is as long as the old one replaces all of it. -/
theorem overlay_of_length {α : Type} {new old : List α} (h : old.length = new.length) :
    overlay new old = new := by
  rw [overlay, h, List.take_length, ← h, List.drop_length, List.append_nil]

theorem length_overlay {α : Type} (new old : List α) : (overlay new old).length = old.length := by
  simp [overlay]; omega

namespace Handle

variable {α : Type} [Scalar α]

instance : Inhabited (Handle α) := ⟨⟨none, 0, 0, .absent, .uninitialized, []⟩⟩

/-- A handle of a tile on some rank, nothing being written or received yet. -/
def new (count : Nat) (owner : Rank) (tag : Option Tag) : Handle α := { tag, owner, count }

/-- A handle whose buffer is written already. -/
def ofBlock (block : List α) (owner : Rank) : Handle α :=
  { tag := none, owner, count := block.length, memory := .present block, state := .localValid }

/-- Size of the buffer in bytes. -/
def bytes (e : Handle α) : Except Fault Nat := Word.mul e.count (Scalar.size α)

/-- Opens the buffer, allocating it first where there is none, and reads it. A block that cannot be
allocated leaves the buffer poisoned. -/
def access (e : Handle α) : Handle α × Except Fault (List α) :=
  match e.memory with
  | .poisoned => (e, .error .poisoned)
  | .present block => (e, .ok block)
  | .absent =>
    if allocatable (e.count * Scalar.size α) then
      let block := List.replicate e.count Scalar.zero
      ({ e with memory := .present block }, .ok block)
    else ({ e with memory := .poisoned }, .error .tooLarge)

/-- The elements of the buffer; none where nothing is allocated. -/
def contents (e : Handle α) : List α :=
  match e.memory with
  | .present block => block
  | _ => []

/-- Replaces the elements of an allocated buffer. The buffer keeps its length. -/
def store (e : Handle α) (block : List α) : Handle α :=
  match e.memory with
  | .present old => { e with memory := .present (overlay block old) }
  | _ => e

def poison (e : Handle α) : Handle α := { e with memory := .poisoned }

/-- Frees the memory. -/
def evict (e : Handle α) : Except Fault (Handle α) :=
  match e.memory with
  | .poisoned => .error .poisoned
  | _ => .ok { e with memory := .absent }

def markWritten (e : Handle α) : Handle α := { e with state := .localValid }

def markCached (e : Handle α) : Handle α := { e with state := .remoteCached }

/-- Notes that the present value is sent to `rank`; the answer tells whether it was not noted
before. -/
def markSent (e : Handle α) (rank : Rank) : Handle α × Bool :=
  if rank ∈ e.sent then (e, false) else ({ e with sent := e.sent ++ [rank] }, true)

/-- Forgets every remote copy: the owner forgets to whom it has sent the value, another rank drops
its own copy. The answer tells whether there was one. -/
def flush (e : Handle α) (rank : Rank) : Handle α × Bool :=
  if rank = e.owner then
    ({ e with
        sent := []
        state := if e.state = .localValid then .globallyVisible else e.state }, false)
  else ({ e with state := .uninitialized }, e.state == .remoteCached)

end Handle

end TiledTensor
