import TiledTensor.Proofs.Dense
import TiledTensor.Proofs.Lockstep
import TiledTensor.Proofs.Tenures

/-!
# What a program asks of all ranks

A program tells all ranks alike which tiles to transfer, which copies to forget, which collective
calls to make and which tensors to give up.  For a collective call each rank has a script of its
own, but the scripts of different ranks come past the same lines, since they differ only in the
operations that owners run (`Joint.course_eq`).
-/

namespace TiledTensor

variable {α : Type}

/-! ## Scripts with the same lines -/

/-- Two scripts come past the same lines, and end in the same way. -/
structure Script.Parallel (s s' : Script α) : Prop where
  lines : s.calls.filterMap Call.line? = s'.calls.filterMap Call.line?
  failure : s.failure = s'.failure

namespace Script.Parallel

variable {s s' t t' : Script α} {β : Type}

theorem refl (s : Script α) : s.Parallel s := ⟨rfl, rfl⟩

theorem append (hs : s.Parallel s') (ht : t.Parallel t') : (s ++ t).Parallel (s' ++ t') := by
  show (s.append t).Parallel (s'.append t')
  unfold Script.append
  rw [hs.failure]
  cases s'.failure with
  | none =>
    refine ⟨?_, ht.failure⟩
    dsimp only
    rw [List.filterMap_append, List.filterMap_append, hs.lines, ht.lines]
  | some e => exact hs

theorem bind {r : Except Fault β} {k k' : β → Script α} (h : ∀ b, (k b).Parallel (k' b)) :
    (Script.bind r k).Parallel (Script.bind r k') := by
  cases r with
  | ok b => exact h b
  | error f => exact refl _

theorem foldr {items : List β} {script script' : β → Script α}
    (h : ∀ x, (script x).Parallel (script' x)) (last : Script α) :
    (items.foldr (fun x rest => script x ++ rest) last).Parallel
      (items.foldr (fun x rest => script' x ++ rest) last) := by
  induction items with
  | nil => exact refl last
  | cons x items ih => exact (h x).append ih

end Script.Parallel

namespace Tensor

open Script.Parallel

variable [Scalar α] {q r : Rank} {src dst : Tensor} {srcAt dstAt : Index}

omit [Scalar α] in
/-- An operation of an owner is no line. -/
theorem lines_onOwner (r : Rank) (tile : Tile) (op : Op α) :
    (onOwner r tile op).filterMap Call.line? = [] := by
  unfold onOwner
  split <;> rfl

theorem parallel_copyTiles (q r : Rank) (ss ds : List Tile) :
    (copyTilesScript q ss ds : Script α).Parallel (copyTilesScript r ss ds) := by
  induction ss generalizing ds with
  | nil => cases ds <;> exact refl _
  | cons s ss ih =>
    cases ds with
    | nil => exact refl _
    | cons d ds =>
      refine append ⟨?_, rfl⟩ (ih ds)
      dsimp only
      rw [List.filterMap_append, List.filterMap_append]
      unfold onOwner
      split <;> split <;> rfl

theorem parallel_copyCalls (q r : Rank) (src : Tensor) (d : Tile) (c : TileCopy) :
    (copyCalls q src d c : Script α).Parallel (copyCalls r src d c) := by
  refine bind fun s => ⟨?_, rfl⟩
  dsimp only
  unfold onOwner
  split <;> split <;> rfl

theorem parallel_tile (q r : Rank) (src : Tensor) (srcAt : Index) (dstTiling : Tiling) (dstAt : Index)
    (n : Nat) (d : Tile) : (tileScript q src srcAt dstTiling dstAt n d : Script α).Parallel
      (tileScript r src srcAt dstTiling dstAt n d) := by
  refine bind fun start => bind fun tileAt => bind fun copies => ?_
  cases copies with
  | none => exact refl _
  | some copies => exact foldr (parallel_copyCalls q r src d) _

theorem parallel_copyIntersection (q r : Rank) (src : Tensor) (srcAt : Index) (dst : Tensor)
    (dstAt : Index) : (copyIntersection q src srcAt dst dstAt : Script α).Parallel
      (copyIntersection r src srcAt dst dstAt) := by
  unfold copyIntersection
  split
  · exact refl _
  · split
    · exact parallel_copyTiles q r _ _
    · refine bind fun overlap => ?_
      cases overlap with
      | none => exact refl _
      | some overlap =>
        exact foldr (fun p : Tile × Nat => parallel_tile q r src srcAt dst.tiling dstAt p.2 p.1) _

theorem parallel_copyTo (q r : Rank) (src dst : Tensor) :
    (copyTo q src dst : Script α).Parallel (copyTo r src dst) := by
  unfold copyTo
  split
  · exact refl _
  · split
    · exact refl _
    · split
      · exact parallel_copyTiles q r _ _
      · exact parallel_copyIntersection q r _ _ _ _

theorem parallel_gather (q r : Rank) (src dst : Tensor) :
    (gather q src dst : Script α).Parallel (gather r src dst) := by
  unfold gather
  split
  · exact refl _
  · exact parallel_copyTo q r _ _

theorem parallel_scatter (q r : Rank) (src dst : Tensor) :
    (scatter q src dst : Script α).Parallel (scatter r src dst) := by
  unfold scatter
  split
  · exact refl _
  · exact parallel_copyTo q r _ _

theorem parallel_clear (q r : Rank) (t : Tensor) :
    (clear q t : Script α).Parallel (clear r t) := by
  refine ⟨?_, rfl⟩
  unfold clear
  dsimp only
  rw [List.filterMap_flatMap, List.filterMap_flatMap]
  refine congrArg (List.flatMap · t.tiles) (funext fun tile => ?_)
  rw [List.filterMap_append, List.filterMap_append, lines_onOwner, lines_onOwner]

end Tensor

/-- The scripts of all ranks for a collective call come past the same lines. -/
theorem Collective.parallel [Scalar α] {ι : Type} (q r : Rank) (t : ι → Tensor) (c : Collective ι) :
    (c.script q t : Script α).Parallel (c.script r t) := by
  cases c with
  | copyTo s d => exact Tensor.parallel_copyTo q r _ _
  | copyIntersection s srcAt d dstAt => exact Tensor.parallel_copyIntersection q r _ _ _ _
  | gather s d => exact Tensor.parallel_gather q r _ _
  | scatter s d => exact Tensor.parallel_scatter q r _ _
  | clear d => exact Tensor.parallel_clear q r _

/-! ## Programs -/

/-- Something that a program asks of all ranks alike. -/
inductive Joint
  | line (l : Line)
  | collective (c : Collective Tensor)
  | drop (t : Tensor)

namespace Joint

variable (α) [Scalar α]

/-- What a rank does with the tensors for it, one milestone after the other. -/
def milestones (r : Rank) : Joint → List Milestone
  | line l => [.line l]
  | collective c => ((c.script r id : Script α).calls.filterMap Call.line?).map .line
  | drop t => [.drop t]

/-- What a rank does with the tensors for a program. -/
def course (r : Rank) (program : List Joint) : List Milestone := program.flatMap (milestones α r)

/-- All ranks have the same course. -/
theorem course_eq (q r : Rank) (program : List Joint) : course α q program = course α r program := by
  unfold course
  refine congrArg (List.flatMap · program) (funext fun x => ?_)
  cases x with
  | line l => rfl
  | collective c => exact congrArg (List.map Milestone.line) (c.parallel q r id).lines
  | drop t => rfl

end Joint

end TiledTensor
