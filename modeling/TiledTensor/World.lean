import TiledTensor.Node.Progress

/-!
# A world of ranks

All ranks with the cluster that connects them. Left to itself a world makes steps until no rank can
make one; the ranks take turns in the order of their numbers.
-/

namespace TiledTensor

/-- One node for each rank, and the cluster between them. -/
structure World (α : Type) where
  cluster : Cluster
  nodes : List (Node α)

namespace World

variable {α : Type} [Scalar α]

/-- A world in which nothing has been made or submitted. -/
def new (size : Nat) (codelets : List String) (severed : List (Rank × Rank)) : World α where
  cluster := { Cluster.ofSize size with severed }
  nodes := (List.range size).map fun rank => { rank, size, codelets }

def size (w : World α) : Nat := w.nodes.length

def node (w : World α) (r : Rank) : Node α := w.nodes.getD r default

def setNode (w : World α) (r : Rank) (n : Node α) : World α := { w with nodes := w.nodes.set r n }

/-- The first step that a rank can make, ranks being asked in order. -/
def stepAny (net : Cluster) : List (Node α) → Option (Cluster × List (Node α))
  | [] => none
  | n :: nodes =>
    match n.step net with
    | some (net, n) => some (net, n :: nodes)
    | none => (stepAny net nodes).map fun (net, nodes) => (net, n :: nodes)

/-- The next step of the world. -/
def step (w : World α) : Option (World α) :=
  (stepAny w.cluster w.nodes).map fun (cluster, nodes) => ⟨cluster, nodes⟩

/-- At most `n` steps. -/
def steps : Nat → World α → World α
  | 0, w => w
  | n + 1, w =>
    match w.step with
    | none => w
    | some w => steps n w

/-- A bound on the number of steps that the world can still make by itself. -/
def remaining (w : World α) : Nat := w.nodes.foldl (fun sum n => sum + n.remaining) 0

/-- Everything that can run, runs. -/
def settle (w : World α) : World α := w.steps w.remaining

/-- Stops everything on all ranks. -/
def halt (w : World α) : World α :=
  let (cluster, nodes) := w.nodes.foldl (fun (net, done) n =>
    let (net, n) := Node.halt net n
    (net, done ++ [n])) (w.cluster, [])
  ⟨cluster, nodes⟩

end World

end TiledTensor
