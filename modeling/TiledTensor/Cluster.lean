import TiledTensor.Table
import TiledTensor.Tag

/-!
# Messages between processes

A cluster is a world of processes with one mailbox for each rank. Messages are matched by channel,
that is by source rank and tag: within a channel of a mailbox the oldest message goes to the oldest
receive, whichever of the two comes first.

A receive is known by its ticket. The ticket is served, or queued with the mailbox, at once; what
became of it is looked up later under the ticket. A receive that is given up forgets its ticket and
leaves it in the queue, where the next message of its channel finds it dead and passes it over.
-/

namespace TiledTensor

/-- The bytes of one message. -/
abbrev Payload := List UInt8

/-- The number of a receive, in the order in which receives are made. -/
abbrev Ticket := Nat

/-- What messages and receives of one mailbox are matched by. -/
structure Channel where
  source : Rank
  tag : Tag
  deriving DecidableEq

/-- Why a message was not sent or not received. -/
inductive CommError
  | noSuchRank (rank size : Nat)
  | closed (source : Rank) (tag : Tag)
  deriving DecidableEq

def CommError.text : CommError → String
  | noSuchRank rank size =>
    "rank " ++ rank.repr ++ " out of range for a world of size " ++ size.repr
  | closed source tag =>
    "transport closed before message " ++ tag.text ++ " from rank " ++ source.repr ++ " arrived"

/-- Messages that wait for a receive and receives that wait for a message, oldest first. -/
structure Mailbox where
  messages : List (Channel × Payload) := []
  waiters : List (Channel × Ticket) := []
  deriving DecidableEq

namespace Mailbox

instance : Inhabited Mailbox := ⟨{}⟩

/-- The oldest entry of a channel, and all others. -/
def oldest {β : Type} (ch : Channel) :
    List (Channel × β) → Option (β × List (Channel × β))
  | [] => none
  | e :: es =>
    if e.1 = ch then some (e.2, es)
    else (oldest ch es).map fun (b, rest) => (b, e :: rest)

/-- The oldest live ticket of a channel, and the queue without it and without the dead tickets
that were before it. -/
def serve (live : Ticket → Bool) (ch : Channel) :
    List (Channel × Ticket) → Option Ticket × List (Channel × Ticket)
  | [] => (none, [])
  | e :: es =>
    if e.1 = ch then
      if live e.2 then (some e.2, es) else serve live ch es
    else
      let (found, rest) := serve live ch es
      (found, e :: rest)

end Mailbox

/-- What has become of a receive. -/
inductive Receipt
  | waiting
  | delivered (payload : Payload)
  | refused (e : CommError)
  deriving DecidableEq

/-- The mailboxes of all ranks, and the receives that have not been given up or collected. -/
structure Cluster where
  mailboxes : List Mailbox
  receipts : Table Ticket Receipt := []
  nextTicket : Ticket := 0
  /-- Pairs of a sender and a destination between which sending fails. -/
  severed : List (Rank × Rank) := []

namespace Cluster

/-- A world of `n` ranks without any message. -/
def ofSize (n : Nat) : Cluster := { mailboxes := List.replicate n {} }

def size (c : Cluster) : Nat := c.mailboxes.length

/-- Nobody has given up the receive, and it has not been answered. -/
def live (c : Cluster) (t : Ticket) : Bool := c.receipts.find? t == some .waiting

/-- Sends a message from `src` to `dst`: to the oldest live receive of its channel, or into the
mailbox. -/
def send (c : Cluster) (src dst : Rank) (tag : Tag) (payload : Payload) :
    Except CommError Cluster :=
  match c.mailboxes[dst]? with
  | none => .error (.noSuchRank dst c.size)
  | some box =>
    if (src, dst) ∈ c.severed then .error (.noSuchRank dst c.size)
    else
      let ch : Channel := ⟨src, tag⟩
      match Mailbox.serve c.live ch box.waiters with
      | (some t, waiters) => .ok { c with
          mailboxes := c.mailboxes.set dst { box with waiters }
          receipts := c.receipts.put t (.delivered payload) }
      | (none, waiters) => .ok { c with
          mailboxes := c.mailboxes.set dst ⟨box.messages ++ [(ch, payload)], waiters⟩ }

/-- Makes a receive on `rank` for the next message that `src` sends it under `tag`. -/
def receive (c : Cluster) (rank src : Rank) (tag : Tag) : Cluster × Ticket :=
  let t := c.nextTicket
  let answer (r : Receipt) (boxes : List Mailbox) : Cluster × Ticket :=
    ({ c with mailboxes := boxes, receipts := c.receipts.put t r, nextTicket := t + 1 }, t)
  if src < c.size then
    let ch : Channel := ⟨src, tag⟩
    let box := c.mailboxes.getD rank {}
    match Mailbox.oldest ch box.messages with
    | some (payload, messages) =>
      answer (.delivered payload) (c.mailboxes.set rank { box with messages })
    | none => answer .waiting (c.mailboxes.set rank { box with waiters := box.waiters ++ [(ch, t)] })
  else answer (.refused (.noSuchRank src c.size)) c.mailboxes

/-- Gives up a receive, or forgets one that has been answered. -/
def forget (c : Cluster) (t : Ticket) : Cluster := { c with receipts := c.receipts.erase t }

/-- Closes a receive that is still waiting. -/
def close (receipts : Table Ticket Receipt) (e : Channel × Ticket) : Table Ticket Receipt :=
  receipts.adjust e.2 fun
    | .waiting => .refused (.closed e.1.source e.1.tag)
    | r => r

/-- Empties the mailbox of `rank` of everything whose tag lies in the range. Receives that are
dropped with it are answered as closed. -/
def retire (c : Cluster) (rank : Rank) (range : TagRange) : Cluster :=
  let box := c.mailboxes.getD rank {}
  let dropped := box.waiters.filter fun e => range.contains e.1.tag
  { c with
    mailboxes := c.mailboxes.set rank
      ⟨box.messages.filter fun e => !range.contains e.1.tag,
        box.waiters.filter fun e => !range.contains e.1.tag⟩
    receipts := dropped.foldl close c.receipts }

/-! ## Histories

One operation of a history of the cluster, and its answer. -/

/-- An operation on the cluster. -/
inductive Action
  | send (src dst : Rank) (tag : Tag) (payload : Payload)
  | receive (rank src : Rank) (tag : Tag)
  | poll (t : Ticket)
  | forget (t : Ticket)
  | retire (rank : Rank) (range : TagRange)
  deriving DecidableEq

/-- What an operation answers. -/
inductive Answer
  | done
  | made (t : Ticket)
  | received (payload : Payload)
  | failed (e : CommError)
  | pending
  /-- There is no receive with this ticket, or it has been answered before. -/
  | gone
  | forgotten (existed : Bool)
  deriving DecidableEq

/-- Performs one operation. A receive that has been answered is forgotten by the poll that says
so. -/
def act (c : Cluster) : Action → Cluster × Answer
  | .send src dst tag payload =>
    match c.send src dst tag payload with
    | .ok c => (c, .done)
    | .error e => (c, .failed e)
  | .receive rank src tag =>
    let (c, t) := c.receive rank src tag
    (c, .made t)
  | .poll t =>
    match c.receipts.find? t with
    | none => (c, .gone)
    | some .waiting => (c, .pending)
    | some (.delivered payload) => (c.forget t, .received payload)
    | some (.refused e) => (c.forget t, .failed e)
  | .forget t => (c.forget t, .forgotten (c.receipts.has t))
  | .retire rank range => (c.retire rank range, .done)

end Cluster

end TiledTensor
