import TiledTensor.Proofs.OwnSteps

/-!
# What becomes of the memory of a buffer

Whatever happens to a rank, a buffer undergoes one of a few things: it is opened, stored into,
poisoned or freed, or something other than its memory changes.  What is true of a buffer through
each of these is true of it for good (`Handle.Kept.undergo`).
-/

namespace TiledTensor

variable {α : Type} [Scalar α]

/-- A property of buffers that depends on the memory and the size alone, and that nothing done to
the memory of a buffer ends. -/
structure Handle.Kept (Q : Handle α → Prop) : Prop where
  relabel : ∀ {e e' : Handle α}, Q e → e'.memory = e.memory → e'.count = e.count → Q e'
  access : ∀ {e : Handle α}, Q e → Q e.access.1
  store : ∀ {e : Handle α} (block : List α), Q e → Q (e.store block)
  poison : ∀ {e : Handle α}, Q e → Q e.poison
  evict : ∀ {e e' : Handle α}, Q e → e.evict = .ok e' → Q e'

namespace Handle.Kept

variable {Q : Handle α → Prop} {n n' : Node α} {net net' : Cluster} {t : Task α} {h j : HandleId}

theorem flush (hQ : Kept Q) {e : Handle α} (he : Q e) (r : Rank) : Q (e.flush r).1 := by
  unfold Handle.flush
  split <;> exact hQ.relabel he rfl rfl

omit [Scalar α] in
theorem of_handles (hq : Q (n.handle h)) (hh : n'.handles = n.handles) : Q (n'.handle h) := by
  rwa [Node.handle_of_handles hh]

omit [Scalar α] in
/-- Only one buffer changes, and as the property allows. -/
theorem setHandle {e : Handle α} (hq : Q (n.handle h)) (he : Q (n.handle j) → Q e) :
    Q ((n.setHandle j e).handle h) := by
  rw [Node.handle_setHandle]
  split
  · rename_i hj
    exact he (hj.1 ▸ hq)
  · exact hq

theorem openHandle (hQ : Kept Q) (hq : Q (n.handle h)) (j : HandleId) :
    Q ((n.openHandle j).1.handle h) :=
  setHandle hq hQ.access

theorem markWritten (hQ : Kept Q) (hq : Q (n.handle h)) (uses : List (HandleId × Access)) :
    Q ((n.markWritten uses).handle h) := by
  induction uses generalizing n with
  | nil => exact hq
  | cons u uses ih =>
    rw [Node.markWritten, List.foldl_cons]
    split
    · exact ih (setHandle hq fun hu => hQ.relabel hu rfl rfl)
    · exact ih hq

theorem touches {ws : HandleId → Prop} (hQ : Kept Q) (ht : n.Touches ws n') (hq : Q (n.handle h)) :
    Q (n'.handle h) := by
  induction ht with
  | refl => exact hq
  | opens k touches ih => exact hQ.openHandle ih k
  | stores k block written touches ih => exact setHandle ih (hQ.store block)
  | poisons k written touches ih => exact setHandle ih hQ.poison

theorem edits {a : Happening α} (hQ : Kept Q) (he : n.Edits a n') (hq : Q (n.handle h)) :
    Q (n'.handle h) := by
  cases he with
  | idle flush transfer handles => exact of_handles hq handles
  | writes uses own flush transfer handles => exact of_handles (hQ.markWritten hq uses) handles
  | opens k c held => exact hQ.openHandle hq c.handle
  | stores k c block held writes => exact setHandle (hQ.openHandle hq c.handle) (hQ.store block)
  | asks k t tag name asks =>
    refine of_handles ?_ (Node.enqueue_handles _ _ _ _)
    exact setHandle hq fun hk => hQ.relabel hk rfl rfl
  | sends k t tag name sends =>
    refine of_handles ?_ (Node.enqueue_handles _ _ _ _)
    exact setHandle hq fun hk => hQ.relabel hk rfl rfl
  | forgets k nothing => exact setHandle hq fun hk => hQ.flush hk n.rank
  | drops k foreign held =>
    refine of_handles ?_ (Node.enqueue_handles _ _ _ _)
    exact setHandle hq fun hk => hQ.relabel hk rfl rfl

theorem starts (hQ : Kept Q) (hs : n.Starts net t net' n') (hq : Q (n.handle h)) :
    Q (n'.handle h) := by
  rcases hs.handles with hsame | ⟨k, dst, tag, -, hopen⟩ | ⟨k, e, -, freed, hfree⟩
  · exact of_handles hq hsame
  · exact of_handles (hQ.openHandle hq k) hopen
  · exact of_handles (setHandle hq fun hk => hQ.evict hk freed) hfree

theorem startAll (hQ : Kept Q) (hq : Q (n.handle h)) (tasks : List (Task α)) :
    Q ((Node.startAll net n tasks).2.handle h) :=
  Node.startAll_of_starts (P := fun m => Q (m.handle h)) hq (fun _ _ hs hm => hQ.starts hs hm)
    fun _ hm => hm

theorem finishes {c : Arrival} {r : Receipt} (hQ : Kept Q) (hf : n.Finishes c r n')
    (hq : Q (n.handle h)) : Q (n'.handle h) := by
  have hopen := hQ.openHandle hq c.handle
  cases hf with
  | accepts payload block opened fits =>
    exact of_handles (setHandle hopen (hQ.store _)) (Node.post_handles _ _)
  | abandons _ m e fails =>
    have hm : Q (m.handle h) := by
      cases fails with
      | refused e => exact hq
      | payload payload block opened misfit => exact hopen
    unfold Node.abandon
    dsimp only
    split
    · rename_i copy hcopy
      refine of_handles ?_ (Node.post_handles _ _)
      exact setHandle hm fun hc => hQ.evict (hQ.flush hc m.rank) hcopy
    · exact setHandle hm fun hc => hQ.flush hc m.rank
  | unopened payload f unopened => exact hopen

/-- Such a property of a buffer outlives whatever happens to its rank. -/
theorem undergo {a : Happening α} (hQ : Kept Q) (step : n.undergo net a = some (net', n'))
    (hq : Q (n.handle h)) : Q (n'.handle h) := by
  cases Node.undergoes_of_undergo step with
  | calls call calls edits => exact hQ.edits edits hq
  | takes takes =>
    cases takes with
    | faults s e events f scheduler queue react => exact of_handles hq (Node.stop_handles _)
    | reacts s e events p scheduler queue react =>
      have hsame : Q (Node.handle { n with events, scheduler := some p.1 } h) := hq
      exact hQ.startAll hsame p.2.started
  | works i w queued =>
    have hrun : Node.Touches (fun _ => True) { n with work := n.work.eraseIdx i }
        (Node.run { n with work := n.work.eraseIdx i } w.op) :=
      Node.touches_run _ fun _ _ _ => trivial
    exact of_handles (hQ.touches hrun hq) (Node.post_handles _ _)
  | arrives i c r pending receipt finishes => exact hQ.finishes finishes hq

end Handle.Kept

end TiledTensor
