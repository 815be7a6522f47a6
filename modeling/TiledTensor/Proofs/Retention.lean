import TiledTensor.Proofs.OwnSteps

/-!
# What stays in memory

A buffer that has been received into keeps what it holds, whatever else the rank is made to do,
until the copy is freed, or something is stored into it that the rank was not to write.
`Node.Retains` says that a step leaves what is in the memory of one buffer.
-/

namespace TiledTensor

namespace Node

variable {α : Type} {n n' m : Node α} {h j : HandleId} {net net' : Cluster} {a : Happening α}
  {t : Task α}

/-- What is in the memory of a buffer stays there. -/
def Retains (h : HandleId) (n n' : Node α) : Prop :=
  ∀ block, (n.handle h).memory = .present block → (n'.handle h).memory = .present block

theorem OnlyMemory.state (hm : n.OnlyMemory n') (h : HandleId) :
    (n'.handle h).state = (n.handle h).state :=
  state_of_bare (hm.bare h)

namespace Retains

theorem refl (h : HandleId) (n : Node α) : Retains h n n := fun _ hb => hb

theorem trans (h₁ : Retains h n m) (h₂ : Retains h m n') : Retains h n n' :=
  fun block hb => h₂ block (h₁ block hb)

theorem of_handles (hh : n'.handles = n.handles) : Retains h n n' := by
  intro block hb
  rw [handle_of_handles hh]
  exact hb

theorem congr (h₁ : Retains h n m) (hh : n'.handles = m.handles) : Retains h n n' :=
  h₁.trans (of_handles hh)

theorem setHandle_of_ne (hj : j ≠ h) (e : Handle α) : Retains h n (n.setHandle j e) := by
  intro block hb
  rw [handle_setHandle, if_neg fun hc => hj hc.1.symm]
  exact hb

theorem setHandle_of_eq {e : Handle α} (he : e.memory = (n.handle j).memory) :
    Retains h n (n.setHandle j e) := by
  intro block hb
  rw [handle_setHandle]
  split
  · rename_i hj
    rw [he, ← hj.1]
    exact hb
  · exact hb

theorem markWritten (n : Node α) (uses : List (HandleId × Access)) :
    Retains h n (n.markWritten uses) := by
  induction uses generalizing n with
  | nil => exact refl h n
  | cons u uses ih =>
    rw [Node.markWritten, List.foldl_cons]
    split
    · have hmark : Retains h n (n.setHandle u.1 (n.handle u.1).markWritten) := setHandle_of_eq rfl
      exact hmark.trans (ih _)
    · exact ih n

variable [Scalar α]

theorem openHandle (n : Node α) (j : HandleId) : Retains h n (n.openHandle j).1 := by
  intro block hb
  rw [openHandle_fst, handle_setHandle]
  split
  · rename_i hj
    obtain ⟨rfl, -⟩ := hj
    unfold Handle.access
    rw [hb]
    exact hb
  · exact hb

end Retains

section

variable [Scalar α]

theorem Touches.retains {ws : HandleId → Prop} (ht : n.Touches ws n') (hw : ¬ws h) :
    Retains h n n' := by
  have hne : ∀ {j}, ws j → j ≠ h := fun hj heq => hw (heq ▸ hj)
  induction ht with
  | refl => exact .refl h n
  | opens j touches ih => exact ih.trans (.openHandle _ j)
  | stores j block written touches ih => exact ih.trans (.setHandle_of_ne (hne written) _)
  | poisons j written touches ih => exact ih.trans (.setHandle_of_ne (hne written) _)

/-- Calls leave what is in the memory of a buffer that they must not write. -/
theorem Edits.retains (he : n.Edits a n')
    (hw : ∀ k c, n.held k = some c → c.access.writes = true → c.handle ≠ h) : Retains h n n' := by
  cases he with
  | idle flush transfer handles => exact .of_handles handles
  | writes uses own flush transfer handles => exact (Retains.markWritten n uses).congr handles
  | opens k c held => exact .openHandle n c.handle
  | stores k c block held writes =>
    exact (Retains.openHandle n c.handle).trans (.setHandle_of_ne (hw k c held writes) _)
  | asks j t tag name asks =>
    refine Retains.congr ?_ (enqueue_handles _ _ _ _)
    exact .setHandle_of_eq rfl
  | sends j t tag name sends =>
    refine Retains.congr ?_ (enqueue_handles _ _ _ _)
    exact .setHandle_of_eq rfl
  | forgets j nothing =>
    refine .setHandle_of_eq ?_
    unfold Handle.flush
    split <;> rfl
  | drops j foreign held =>
    refine Retains.congr ?_ (enqueue_handles _ _ _ _)
    exact .setHandle_of_eq rfl

/-- Only the eviction of a copy frees it as it is started. -/
theorem Starts.retains (hs : n.Starts net t net' n') (hj : t.job ≠ .evict h) : Retains h n n' := by
  rcases hs.handles with hsame | ⟨j, dst, tag, -, hopen⟩ | ⟨j, e, job, -, hfree⟩
  · exact .of_handles hsame
  · exact (Retains.openHandle n j).congr hopen
  · have hne : j ≠ h := fun heq => hj (heq ▸ job)
    exact (Retains.setHandle_of_ne hne e).congr hfree

/-- The end of a receive leaves what is in the memory of another buffer. -/
theorem Finishes.retains_of_ne {c : Arrival} {r : Receipt} (hf : n.Finishes c r n')
    (hne : c.handle ≠ h) : Retains h n n' := by
  cases hf with
  | accepts payload block opened fits =>
    exact ((Retains.openHandle n c.handle).trans (.setHandle_of_ne hne _)).congr (post_handles _ _)
  | abandons _ m e fails =>
    have hm : Retains h n m := by
      cases fails with
      | refused e => exact .refl h n
      | payload payload block opened misfit => exact .openHandle n c.handle
    intro block hb
    rw [handle_abandon_of_ne hne]
    exact hm block hb
  | unopened payload f unopened => exact .openHandle n c.handle

end

end Node

end TiledTensor
