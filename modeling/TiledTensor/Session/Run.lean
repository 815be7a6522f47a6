import TiledTensor.Session.Commands

/-!
# Running a session

After each step the world runs until it comes to rest. Then the calls in progress are looked at in
the order in which they were started; those that have finished are resolved, and give back the
access that they had. The world runs again, and so on, until no call finishes.
-/

namespace TiledTensor

namespace Session

variable {α : Type} [Scalar α]

/-! ## Looking at a call in progress -/

/-- What an accessor has come to: nothing yet, or the opened buffer. -/
def enter (s : Session α) (r : Rank) (id : TaskId) :
    Option (Session α × Except Failure (Accessor × List α)) :=
  let n := s.node r
  match n.accessors.find? id with
  | none | some ⟨_, _, .waiting⟩ => none
  | some ⟨_, _, .closed⟩ => some (s, .error (.task .closed))
  | some a =>
    match n.enter a with
    | (n, .ok block) => some (s.setNode r n, .ok (a, block))
    | (n, .error f) => some (s.setNode r n, .error (.fault f))

/-- Gives back an access. -/
def giveBack (s : Session α) (r : Rank) (id : TaskId) : Session α :=
  s.setNode r ((s.node r).release id)

/-- Writes the first elements of a tile and gives back the access. -/
def finishWrite (s : Session α) (r : Rank) (id : TaskId) (a : Accessor) (data : List α) :
    Session α × Except Failure (Outcome α) :=
  match (s.node r).write a data with
  | .ok n => ((s.setNode r n).giveBack r id, .ok .ok)
  | .error f => (s.giveBack r id, .error (.fault f))

/-- What a call that needs access has come to, if it has finished. An access that cannot be used is
given back. -/
def lookInside (s : Session α) (r : Rank) (id : TaskId)
    (use : Session α → Accessor → List α → Session α × Except Failure (Outcome α)) :
    Option (Session α × Except Failure (Outcome α)) :=
  (s.enter r id).map fun
    | (s, .ok (a, block)) => use s a block
    | (s, .error e) => (s.giveBack r id, .error e)

/-- What a call in progress has come to, if it has finished. -/
def look (s : Session α) (p : Pending α) : Option (Session α × Except Failure (Outcome α)) :=
  match p.errand with
  | .write id data => s.lookInside p.rank id fun s a _ => s.finishWrite p.rank id a data
  | .read id => s.lookInside p.rank id fun s _ block =>
    (s.giveBack p.rank id, .ok (.elements block))
  | .hold id name layout raw => s.lookInside p.rank id fun s a _ =>
    ({ s with guards := s.guards ++ [⟨p.rank, name, id, a, layout, raw⟩] }, .ok .granted)
  | .barrier b =>
    let n := s.node p.rank
    let answer (result : Except Failure (Outcome α)) := some (s.setNode p.rank (n.leave b), result)
    match n.barriers.find? b with
    | none | some .waiting => none
    | some (.passed none) => answer (.ok .ok)
    | some (.passed (some e)) => answer (.error (.task e))
    | some .closed => answer (.error (.task .closed))
  | .message t =>
    match s.world.cluster.act (.poll t) with
    | (net, .received payload) => some (s.setCluster net, .ok (.bytes payload))
    | (net, .failed e) => some (s.setCluster net, .error (.comm e))
    | _ => none

/-- Looks at calls in order. The answer has those that are still in progress and those that have
finished. -/
def lookAll (s : Session α) : List (Pending α) → Session α × List (Pending α) × List (Resolved α)
  | [] => (s, [], [])
  | p :: ps =>
    match s.look p with
    | none =>
      let (s, waiting, done) := s.lookAll ps
      (s, p :: waiting, done)
    | some (s, result) =>
      let outcome := match result with
        | .ok outcome => outcome
        | .error e => .failed (s.complain p.rank e)
      let (s, waiting, done) := s.lookAll ps
      (s, waiting, ⟨p.rank, p.label, outcome⟩ :: done)

/-- Runs the world and resolves calls, at most `rounds` times. -/
def rounds : Nat → Session α → Session α × List (Resolved α)
  | 0, s => (s, [])
  | n + 1, s =>
    let s := { s with world := s.world.settle }
    match s.lookAll s.pending with
    | (s, _, []) => (s, [])
    | (s, waiting, done) =>
      let (s, later) := rounds n { s with pending := waiting }
      (s, done ++ later)

/-- Runs the world until no call finishes. Each round but the last resolves a call. -/
def rest (s : Session α) : Session α × List (Resolved α) := rounds (s.pending.length + 1) s

/-! ## What has changed -/

/-- The tiles of the live objects of a rank: objects by name, and their tiles in order. -/
def tilesOf (s : Session α) (r : Rank) : List (TileRef × Tile) :=
  let own := s.objects.filter fun e => decide (e.1.1 = r)
  let sorted := own.mergeSort fun a b => decide (a.1.2 ≤ b.1.2)
  sorted.flatMap fun e => e.2.tiles.map fun p => (⟨e.1.2, p.1⟩, p.2)

def sightOf (n : Node α) (h : HandleId) : Sight :=
  let e := n.handle h
  ⟨e.state, e.memory.status⟩

/-- The tiles of a rank that look different from when they were last seen. -/
def changesOf (s : Session α) (r : Rank) : List Change :=
  (s.tilesOf r).filterMap fun (ref, tile) =>
    let sight := sightOf (s.node r) tile.handle
    if (s.seen.find? (r, ref.object, ref.number)).getD {} = sight then none
    else some ⟨r, ref, sight⟩

/-- Sees all tiles again. -/
def observe (s : Session α) : Session α × List Change :=
  let changes := (List.range s.world.size).flatMap s.changesOf
  let seen := changes.foldl
    (fun seen c => seen.put (c.rank, c.tile.object, c.tile.number) c.sight) s.seen
  ({ s with seen }, changes)

/-! ## Steps -/

/-- Sends a command to ranks in order. -/
def commandAll (s : Session α) (c : Command α) : List Rank → Session α × List (Reply α)
  | [] => (s, [])
  | r :: ranks =>
    let (s, reply) := s.command r c
    let (s, replies) := s.commandAll c ranks
    (s, reply :: replies)

mutual

/-- Carries out a step without letting the world run. -/
def carryOut (s : Session α) : Step α → Session α × StepReply α
  | .each ranks c =>
    let (s, replies) := s.commandAll c (ranks.getD (List.range s.world.size))
    (s, .each replies)
  | .batch steps =>
    let (s, replies) := s.carryOutAll steps
    (s, .batch replies)
  | .halt => ({ s with world := s.world.halt }, .halted)

/-- Carries out steps in order without letting the world run. -/
def carryOutAll (s : Session α) : List (Step α) → Session α × List (StepReply α)
  | [] => (s, [])
  | step :: steps =>
    let (s, reply) := s.carryOut step
    let (s, replies) := s.carryOutAll steps
    (s, reply :: replies)

end

/-- Carries out a step and lets the world run. -/
def takeStep (s : Session α) (step : Step α) : Session α × Report α :=
  let (s, reply) := s.carryOut step
  let (s, resolved) := s.rest
  let (s, changed) := s.observe
  (s, ⟨reply, resolved, changed⟩)

/-- Takes steps in order. -/
def takeSteps (s : Session α) : List (Step α) → Session α × List (Report α)
  | [] => (s, [])
  | step :: steps =>
    let (s, report) := s.takeStep step
    let (s, reports) := s.takeSteps steps
    (s, report :: reports)

end Session

end TiledTensor
