import TiledTensor.Session

/-!
# Carrying out commands

Every command runs at once on its rank. What it queues is done later, and a call in progress is
looked at again only when the world has come to rest.
-/

namespace TiledTensor

namespace Session

variable {α : Type} [Scalar α]

/-! ## Objects -/

/-- Gives up an object. -/
def discard (s : Session α) (r : Rank) : Object → Session α
  | .tile _ => s
  | .tensor t => s.setNode r ((s.node r).dropTensor t)

/-- Puts an object under a name; one that had the name before is given up afterwards. -/
def replace (s : Session α) (r : Rank) (name : String) (o : Object) : Session α :=
  let former := s.object? r name
  let s := { s with objects := s.objects.put (r, name) o }
  match former with
  | none => s
  | some old => s.discard r old

def makeTensor (s : Session α) (r : Rank) (name : String) (shape basetile : Shape)
    (owners : Option (List Rank)) (tag : Option Tag) : Session α × Reply α :=
  let s := match tag with
    | none => s
    | some t => s.setLastTag r t
  match Tiling.new shape basetile with
  | .error f => (s, s.failed r (.fault f))
  | .ok tiling =>
    let made := match owners with
      | some owners => (s.node r).makeTensor tiling owners (s.lastTag r)
      | none => (s.node r).makeLocalTensor tiling (s.lastTag r)
    match made with
    | .error (.fault f) => (s, s.failed r (.fault f))
    | .error e => (s, .refused (s.complain r e) (s.lastTag r))
    | .ok (n, t, next) =>
      let s := ((s.setNode r n).setLastTag r next).replace r name (.tensor t)
      (s, .made t.tag next t.tiles.length)

def makeTile (s : Session α) (r : Rank) (name : String) (shape : Shape) (data : Option (List α)) :
    Session α × Reply α :=
  match Layout.new shape with
  | .error f => (s, s.failed r (.fault f))
  | .ok layout =>
    match data with
    | none =>
      let (n, t) := (s.node r).makeTile layout
      ((s.setNode r n).replace r name (.tile t), .ok)
    | some data =>
      match (s.node r).makeTileOf layout data with
      | .error e => (s, s.failed r (.tensor e))
      | .ok (n, t) => ((s.setNode r n).replace r name (.tile t), .ok)

def dropObject (s : Session α) (r : Rank) (name : String) : Session α × Reply α :=
  match s.object? r name with
  | none => (s, .dropped false)
  | some o => ({ s with objects := s.objects.erase (r, name) }.discard r o, .dropped true)

/-! ## Questions -/

def reportHandle (n : Node α) (h : HandleId) : HandleReport :=
  let e := n.handle h
  ⟨e.tag, e.owner, e.count, e.bytes, e.state⟩

def reportTensor (s : Session α) (r : Rank) (t : Tensor) : TensorReport where
  shape := t.shape
  grid := t.tiling.grid.shape
  rank := r
  owners := t.owners
  tag := t.tag
  tiles := t.tiles.zipIdx.map fun (tile, i) =>
    { layout := tile.layout
      start := t.tiling.tileStartAt i
      owner := tile.owner
      isLocal := tile.owner == r
      handle := reportHandle (s.node r) tile.handle }

def answerTile (s : Session α) (r : Rank) (t : Tensor) (i : Nat) : TileAnswers :=
  let tile := t.tile i
  { start := t.tiling.tileStartAt i
    owner := tile.map (·.owner)
    isLocal := tile.map fun tile => tile.owner == r
    shape := tile.map (·.layout.shape)
    handleCount := tile.map fun tile => ((s.node r).handle tile.handle).count
    count := tile.map (·.layout.count) }

/-! ## Calls in progress -/

def await (s : Session α) (r : Rank) (label : String) (e : Errand α) : Session α :=
  { s with pending := s.pending ++ [⟨r, label, e⟩] }

/-- Starts a call that needs access to a tile. -/
def startAccess (s : Session α) (r : Rank) (label : String) (t : Tile) (a : Access)
    (errand : TaskId → Errand α) : Session α × Reply α :=
  match (s.node r).acquire t.handle a with
  | (n, .ok id) => ((s.setNode r n).await r label (errand id), .started)
  | (n, .error e) => (s.setNode r n, s.failed r (.task e))

def startWrite (s : Session α) (r : Rank) (label : String) (t : Tile) (a : Access)
    (data : List α) : Session α × Reply α :=
  s.startAccess r label t a fun id => .write id data

def startRead (s : Session α) (r : Rank) (label : String) (t : Tile) : Session α × Reply α :=
  s.startAccess r label t .read Errand.read

/-- The linear indices that the elements of a tile have in the whole tensor. -/
def positions (t : Tensor) (i : Nat) (tile : Tile) : Except Fault (List Nat) := do
  let start ← t.tiling.tileStartAt i
  (List.range tile.layout.count).mapM fun x => do
    t.tiling.whole.toLinear (← Word.addEach (← tile.layout.toIndex x) start)

/-- The elements that a tile is filled with. -/
def filling (f : Filling α) (o : Object) (number : Option Nat) (tile : Tile) :
    Except Fault (List α) :=
  match f, o, number with
  | .value x, _, _ => .ok (List.replicate tile.layout.count x)
  | .counted base, .tensor t, some i => do
    return (← positions t i tile).map fun p => Scalar.ofBits ((base + p) % Word.limit)
  | .counted base, _, _ =>
    .ok ((List.range tile.layout.count).map fun p => Scalar.ofBits ((base + p) % Word.limit))

/-- Makes one call for each tile that a rank owns of an object, in order. -/
def eachLocal (s : Session α) (r : Rank) (o : Object)
    (f : Session α → Option Nat → Tile → Session α × Reply α) : Session α × Reply α :=
  let (s, replies) := o.tiles.foldl (fun (s, replies) (number, tile) =>
    if tile.owner = r then
      let (s, reply) := f s number tile
      (s, replies ++ [reply])
    else (s, replies)) (s, [])
  (s, .list replies)

def fillObject (s : Session α) (r : Rank) (name : String) (f : Filling α) (o : Object) :
    Session α × Reply α :=
  s.eachLocal r o fun s number tile =>
    match filling f o number tile with
    | .error e => (s, s.failed r (.fault e))
    | .ok data => s.startWrite r ("fill " ++ TileRef.text ⟨name, number⟩) tile .write data

def dumpObject (s : Session α) (r : Rank) (name : String) (o : Object) : Session α × Reply α :=
  s.eachLocal r o fun s number tile => s.startRead r (TileRef.text ⟨name, number⟩) tile

/-! ## Guards -/

def guard? (s : Session α) (r : Rank) (name : String) : Option Guard :=
  s.guards.find? fun g => decide (g.rank = r ∧ g.name = name)

/-- The elements that a guard gives access to. -/
def guarded (s : Session α) (g : Guard) : List α := (s.node g.rank).shown g.accessor

/-- The offset of an element that is asked for through a guard by its coordinates. -/
def placeOf (g : Guard) (i : Index) : Except Fault Nat :=
  if g.raw then
    match i with
    | x :: _ => .ok x
    | [] => .error .outOfBounds
  else g.layout.toLinear i

def getThrough (s : Session α) (g : Guard) (i : Index) : Except Fault α := do
  match (s.guarded g)[← placeOf g i]? with
  | some x => return x
  | none => .error .outOfBounds

/-- Writes an element through a guard. The coordinates are checked before the mode of the guard. -/
def setThrough (s : Session α) (g : Guard) (i : Index) (x : α) : Except Fault (Session α) := do
  return s.setNode g.rank (← (s.node g.rank).writeAt g.accessor (← placeOf g i) x)

/-- Gives up a call in progress. -/
def giveUp (s : Session α) (p : Pending α) : Session α :=
  let n := s.node p.rank
  match p.errand with
  | .write id _ | .read id | .hold id _ _ _ => s.setNode p.rank (n.release id)
  | .barrier b => s.setNode p.rank (n.leave b)
  | .message t => s.setCluster (s.world.cluster.forget t)

/-- Gives up all guards and all calls in progress of a rank that have a given name. -/
def release (s : Session α) (r : Rank) (label : String) : Session α × Reply α :=
  let held := s.guards.filter fun g => decide (g.rank = r ∧ g.name = label)
  let waiting := s.pending.filter fun p => decide (p.rank = r ∧ p.label = label)
  let s := held.foldl (fun s g => s.setNode r ((s.node r).release g.id)) s
  let s := waiting.foldl giveUp s
  ({ s with
      guards := s.guards.filter fun g => !decide (g.rank = r ∧ g.name = label)
      pending := s.pending.filter fun p => !decide (p.rank = r ∧ p.label = label) },
    .released held.length waiting.length)

/-! ## Tasks -/

/-- The reply to a call that has ended. -/
def finish (s : Session α) (r : Rank) (n : Node α) : Except Failure Unit → Session α × Reply α
  | .ok () => (s.setNode r n, .ok)
  | .error e => (s.setNode r n, s.failed r e)

def finishTask (s : Session α) (r : Rank) (a : Node α × Except TaskError Unit) :
    Session α × Reply α :=
  s.finish r a.1 (a.2.mapError Failure.task)

def perform (s : Session α) (r : Rank) (script : Script α) : Session α × Reply α :=
  let (n, result) := (s.node r).perform script
  s.finish r n result

/-- Carries out the script of two tensors of a rank. -/
def performOn (s : Session α) (r : Rank) (src dst : String)
    (script : Tensor → Tensor → Script α) : Session α × Reply α :=
  match s.tensor? r src, s.tensor? r dst with
  | some src, some dst => s.perform r (script src dst)
  | _, _ => (s, .misused)

def resolveOperand (s : Session α) (r : Rank) : OperandRef → Option Operand
  | .data t a => (s.tile? r t).map fun tile => .data tile.handle a
  | .scratch bytes => some (.scratch bytes)

/-- The operation that a hand-made one describes. -/
def describe (spec : OpSpec) (operands : List Operand) : Op α :=
  match spec with
  | .copy => ⟨"copy", operands, Codelet.copy⟩
  | .clear => ⟨"clear", operands, Codelet.clear⟩
  | .subBox b => ⟨"copy_intersection", operands, Codelet.subBox b⟩
  | .mix c => ⟨"mix", operands, Codelet.mix c⟩
  | .bare name => ⟨name, operands, fun views => .ok views⟩

/-! ## All commands -/

/-- Carries out a command on a tile. -/
def onTile (s : Session α) (r : Rank) (t : TileRef) (f : Tile → Session α × Reply α) :
    Session α × Reply α :=
  match s.tile? r t with
  | some tile => f tile
  | none => (s, .misused)

/-- Carries out a command on a guard that is held. -/
def onGuard (s : Session α) (r : Rank) (name : String) (f : Guard → Session α × Reply α) :
    Session α × Reply α :=
  match s.guard? r name with
  | some g => f g
  | none => (s, .notHeld)

/-- Carries out a command on one rank. -/
def command (s : Session α) (r : Rank) : Command α → Session α × Reply α
  | .tensor name shape basetile owners tag => s.makeTensor r name shape basetile owners tag
  | .tile name shape data => s.makeTile r name shape data
  | .drop name => s.dropObject r name
  | .rankInfo => (s, .rankInfo r (s.node r).size s.workers (s.lastTag r))
  | .info name =>
    match s.tensor? r name with
    | some t => (s, .tensorInfo (s.reportTensor r t))
    | none => (s, .misused)
  | .tileInfo t => s.onTile r t fun tile =>
    (s, .tileInfo tile.layout tile.owner (reportHandle (s.node r) tile.handle))
  | .tileQuery name i =>
    match s.tensor? r name with
    | some t => (s, .tileAnswers (s.answerTile r t i))
    | none => (s, .misused)
  | .fill name f =>
    match s.object? r name with
    | some o => s.fillObject r name f o
    | none => (s, .misused)
  | .dump name =>
    match s.object? r name with
    | some o => s.dumpObject r name o
    | none => (s, .misused)
  | .write t data a label => s.onTile r t fun tile =>
    s.startWrite r (label.getD ("write " ++ t.text)) tile a data
  | .read t label => s.onTile r t fun tile => s.startRead r (label.getD ("read " ++ t.text)) tile
  | .acquire name t a raw => s.onTile r t fun tile =>
    s.startAccess r name tile a fun id => .hold id name tile.layout raw
  | .guardRead name => s.onGuard r name fun g =>
    (s, if g.raw then .rawElements g.accessor.access.writes (s.guarded g)
      else .elements (s.guarded g))
  | .guardGet name i => s.onGuard r name fun g =>
    match s.getThrough g i with
    | .ok x => (s, .element x)
    | .error f => (s, s.failed r (.fault f))
  | .guardSet name i x => s.onGuard r name fun g =>
    match s.setThrough g i x with
    | .ok s => (s, .ok)
    | .error f => (s, s.failed r (.fault f))
  | .release label => s.release r label
  | .copyTo src dst => s.performOn r src dst (Tensor.copyTo r)
  | .gather src dst => s.performOn r src dst (Tensor.gather r)
  | .scatter src dst => s.performOn r src dst (Tensor.scatter r)
  | .copyIntersection src srcAt dst dstAt => s.performOn r src dst fun src dst =>
    Tensor.copyIntersection r src srcAt dst dstAt
  | .clear name =>
    match s.tensor? r name with
    | some t => s.perform r (Tensor.clear r t)
    | none => (s, .misused)
  | .copyTile src srcAt dst dstAt => s.onTile r src fun src => s.onTile r dst fun dst =>
    s.perform r (Tile.copyIntersection src srcAt dst dstAt)
  | .task spec operands device =>
    match operands.mapM (s.resolveOperand r) with
    | some operands => s.finishTask r ((s.node r).submitOn (describe spec operands) device)
    | none => (s, .misused)
  | .transfer t target => s.onTile r t fun tile =>
    s.finishTask r ((s.node r).transfer tile.handle target)
  | .flush t => s.onTile r t fun tile => s.finishTask r ((s.node r).flush tile.handle)
  | .retire ts tags =>
    match ts.mapM (s.tile? r) with
    | some tiles => (s.setNode r ((s.node r).retire (tiles.map (·.handle)) tags), .ok)
    | none => (s, .misused)
  | .wait label =>
    match (s.node r).wait with
    | (n, .ok b) => ((s.setNode r n).await r (label.getD "wait") (.barrier b), .started)
    | (n, .error e) => (s.setNode r n, s.failed r (.task e))
  | .send dst tag payload =>
    match s.world.cluster.send r dst tag payload with
    | .ok net => (s.setCluster net, .ok)
    | .error e => (s, s.failed r (.comm e))
  | .receive src tag label =>
    let (net, t) := s.world.cluster.receive r src tag
    let s := s.setCluster net
    match net.receipts.find? t with
    | some (.refused e) => (s.setCluster (net.forget t), s.failed r (.comm e))
    | _ => (s.await r (label.getD ("recv " ++ tag.text)) (.message t), .started)

end Session

end TiledTensor
