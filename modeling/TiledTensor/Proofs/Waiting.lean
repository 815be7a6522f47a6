import TiledTensor.Proofs.Allocation

/-!
# Waiting for memory

A reader that has found no memory waits for those who read the buffer by now.  They have come to it
since, so whatever memory they wait for themselves they have looked for later.  Along the waiting
everybody has looked later than the one before, and nobody waits for himself in the end
(`Node.Staggered.not_of_behind`).
-/

namespace TiledTensor

variable {α : Type}

/-! ## One opening -/

namespace Opening

variable {o o' : Opening} {h : HandleId} {a : Access}

/-- The operand is open, or nothing is left but to take the lock that is kept. -/
def Reaches (o : Opening) (h : HandleId) (a : Access) : Prop :=
  (h, a) ∈ o.held ∨ o.operands[o.opened]? = some (.data h a) ∧ o.phase = .enter

/-- Memory is to be allocated. -/
def Lacking (o : Opening) : Prop := ∃ h a, o.Lacks h a

/-- Memory is to be allocated for a buffer that is being read by then. -/
def Behind (o o' : Opening) : Prop := ∃ h a b, o.Lacks h a ∧ (h, b) ∈ o'.held ∧ b.writes = false

/-- Only what the task opens is reached. -/
theorem Reaches.mem_uses (hr : o.Reaches h a) : (h, a) ∈ o.uses := by
  rcases hr with hheld | ⟨hnext, -⟩
  · exact mem_uses_of_held hheld
  · exact mem_uses_of_getElem? hnext

/-- Nothing is held of what has just been begun. -/
theorem held_eq_nil (ho : o.opened = 0) : o.held = [] := by
  unfold held
  rw [ho]
  rfl

theorem mem_held_advance :
    (h, a) ∈ o.advance.held ↔ (h, a) ∈ o.held ∨ o.operands[o.opened]? = some (.data h a) := by
  rw [mem_held_iff, mem_held_iff]
  constructor
  · rintro ⟨i, hi, hop⟩
    rcases Nat.lt_succ_iff_lt_or_eq.mp hi with hi | rfl
    · exact Or.inl ⟨i, hi, hop⟩
    · exact Or.inr hop
  · rintro (⟨i, hi, hop⟩ | hop)
    · exact ⟨i, Nat.lt_succ_of_lt hi, hop⟩
    · exact ⟨o.opened, Nat.lt_succ_self _, hop⟩

namespace Steps

variable [Scalar α] {n n' : Node α}

/-- A step frees no memory. -/
theorem opened (hs : o.Steps n n' o') (hh : n.Opened h) : n'.Opened h := by
  rcases hs.node with rfl | ⟨k, b, -, rfl⟩
  · exact hh
  · have hspares : Node.Spares True h n (n.openHandle k).1 := .openHandle n k
    exact hspares.lasts hh

/-- A buffer has memory when it is reached. -/
theorem reaches (hs : o.Steps n n' o') (hb : ∀ h a, .data h a ∈ o.operands → h < n.handles.length)
    (hr : o'.Reaches h a) : o.Reaches h a ∨ n'.Opened h := by
  have hphase : ∀ p, p ≠ Phase.enter → Reaches { o with phase := p } h a → o.Reaches h a := by
    rintro p hp (hheld | ⟨-, hphase⟩)
    · exact Or.inl hheld
    · exact absurd hphase hp
  have hadvance : o.advance.Reaches h a →
      (h, a) ∈ o.held ∨ o.operands[o.opened]? = some (.data h a) := by
    rintro (hheld | ⟨-, hphase⟩)
    · exact mem_held_advance.mp hheld
    · cases hphase
  cases hs with
  | full | failed => exact Or.inl hr
  | overflow | misses | turns | unopened | poisoned => exact Or.inl (hphase _ (by simp) hr)
  | scratch next room =>
    rcases hadvance hr with hheld | hop
    · exact Or.inl (Or.inl hheld)
    · cases next.symm.trans hop
  | enters next phase whole =>
    rcases hadvance hr with hheld | hop
    · exact Or.inl (Or.inl hheld)
    · exact Or.inl (Or.inr ⟨hop, phase⟩)
  | finds next phase memory =>
    rcases hr with hheld | ⟨hop, -⟩
    · exact Or.inl (Or.inl hheld)
    · obtain ⟨rfl, -⟩ := Operand.data.inj (Option.some.inj (next.symm.trans hop))
      refine Or.inr fun habsent => ?_
      cases memory.symm.trans habsent
  | allocates next phase ok =>
    rcases hr with hheld | ⟨hop, -⟩
    · exact Or.inl (Or.inl hheld)
    · obtain ⟨rfl, -⟩ := Operand.data.inj (Option.some.inj (next.symm.trans hop))
      exact Or.inr (Node.opened_openHandle (hb _ _ (List.mem_of_getElem? next)))

/-- Nothing more is held when memory is found to be lacking. -/
theorem held (hs : o.Steps n n' o') (hl : o'.Lacking) (hu : (h, a) ∈ o'.held) : (h, a) ∈ o.held := by
  cases hs with
  | scratch | enters =>
    obtain ⟨k, b, -, hphase⟩ := hl
    simp [advance] at hphase
  | _ => exact hu

/-- Whatever is lacking was so before, or there is no memory now. -/
theorem lacking (hs : o.Steps n n' o') :
    (∀ h a, o'.Lacks h a → o.Lacks h a) ∨ ∀ h a, o'.Lacks h a → ¬n.Opened h := by
  by_cases hmissed : o.phase = .missed
  · exact Or.inl fun h a hl => ⟨(hs.lacks hl).1, Or.inl hmissed⟩
  · exact Or.inr fun h a hl hh => (hs.lacks hl).2.elim hmissed hh

end Steps

end Opening

/-! ## The openings of a rank -/

/-- What is put in the place of an entry stands beside the other ones. -/
theorem mem_set_of_nodup {β γ : Type} {f : β → γ} {l : List β} {i : Nat} {x y z : β}
    (hl : (l.map f).Nodup) (hy : l[i]? = some y) (hx : x ∈ l.set i z) :
    x = z ∨ x ∈ l ∧ f x ≠ f y := by
  obtain ⟨j, hj⟩ := List.getElem?_of_mem hx
  rw [List.getElem?_set] at hj
  split at hj
  · split at hj
    · exact Or.inl (Option.some.inj hj).symm
    · cases hj
  · rename_i hne
    refine Or.inr ⟨List.mem_of_getElem? hj, fun heq => hne ?_⟩
    obtain rfl := List.inj_on_of_nodup_map hl (List.mem_of_getElem? hj) (List.mem_of_getElem? hy) heq
    exact (List.getElem?_inj (lt_of_getElem?_eq_some hy) (hl.of_map f)).mp (hy.trans hj.symm)

namespace Node

/-- What is read has memory, and those who wait for memory have looked for it one after the other:
nobody waits for one that has looked before him. -/
structure Staggered (n : Node α) (openings : List Opening) : Prop where
  memory : ∀ o ∈ openings, ∀ h a, o.Reaches h a → a.writes = false → n.Opened h
  turns : ∃ turn : TaskId → Nat, ∀ o ∈ openings, ∀ o' ∈ openings, o.Behind o' → o'.Lacking →
    turn o.id < turn o'.id

theorem exists_bound (turn : TaskId → Nat) (openings : List Opening) :
    ∃ N, ∀ o ∈ openings, turn o.id < N := by
  induction openings with
  | nil => exact ⟨0, by simp⟩
  | cons o openings ih =>
    obtain ⟨N, hN⟩ := ih
    refine ⟨N + turn o.id + 1, List.forall_mem_cons.mpr ⟨by omega, fun o' ho' => ?_⟩⟩
    have := hN o' ho'
    omega

namespace Staggered

variable {n n' : Node α} {openings openings' : List Opening} {o o' : Opening} {i : Nat}

theorem nil (n : Node α) : n.Staggered [] :=
  ⟨by simp, fun _ => 0, by simp⟩

/-- Some openings are left, and no memory is freed that is read by them. -/
theorem sub (hs : n.Staggered openings) (hsub : openings' ⊆ openings)
    (hkeep : ∀ o ∈ openings', ∀ h a, o.Reaches h a → a.writes = false → n.Opened h → n'.Opened h) :
    n'.Staggered openings' := by
  obtain ⟨turn, hturn⟩ := hs.turns
  refine ⟨?_, turn, fun o ho o' ho' => hturn o (hsub ho) o' (hsub ho')⟩
  intro o ho h a hr ha
  exact hkeep o ho h a hr ha (hs.memory o (hsub ho) h a hr ha)

/-- What is begun waits for nobody, and nobody for it. -/
theorem begin (hs : n.Staggered openings) (hheld : o.held = []) (hlack : ¬o.Lacking)
    (hr : ∀ h a, o.Reaches h a → a.writes = true) : n.Staggered (openings ++ [o]) := by
  obtain ⟨turn, hturn⟩ := hs.turns
  constructor
  · intro o₁ ho₁ h a hreach ha
    rcases List.mem_append.mp ho₁ with ho₁ | ho₁
    · exact hs.memory o₁ ho₁ h a hreach ha
    · obtain rfl := List.mem_singleton.mp ho₁
      exact absurd (hr h a hreach) (Bool.eq_false_iff.mp ha)
  · refine ⟨turn, ?_⟩
    intro o₁ ho₁ o₂ ho₂ hbehind hl
    rcases List.mem_append.mp ho₂ with ho₂ | ho₂
    · rcases List.mem_append.mp ho₁ with ho₁ | ho₁
      · exact hturn o₁ ho₁ o₂ ho₂ hbehind hl
      · obtain rfl := List.mem_singleton.mp ho₁
        obtain ⟨h, a, -, hlacks, -⟩ := hbehind
        exact absurd ⟨h, a, hlacks⟩ hlack
    · obtain rfl := List.mem_singleton.mp ho₂
      exact absurd hl hlack

variable [Scalar α]

/-- Whoever finds now that memory is lacking has looked after all others. -/
theorem step (hs : n.Staggered openings) (hids : (openings.map (·.id)).Nodup)
    (hfound : openings[i]? = some o) (hstep : o.Steps n n' o')
    (hb : ∀ h a, .data h a ∈ o.operands → h < n.handles.length) :
    n'.Staggered (openings.set i o') := by
  obtain ⟨turn, hturn⟩ := hs.turns
  have hmem := List.mem_of_getElem? hfound
  constructor
  · intro o₁ ho₁ h a hreach ha
    rcases List.mem_or_eq_of_mem_set ho₁ with ho₁ | rfl
    · exact hstep.opened (hs.memory o₁ ho₁ h a hreach ha)
    · rcases hstep.reaches hb hreach with hreach | hh
      · exact hstep.opened (hs.memory o hmem h a hreach ha)
      · exact hh
  -- whoever lacks memory now has held what he holds before
  have hold : ∀ x ∈ openings.set i o', ∃ y ∈ openings, y.id = x.id ∧ (x = y ∨ x = o' ∧ y = o) ∧
      (x.Lacking → ∀ h a, (h, a) ∈ x.held → (h, a) ∈ y.held) := by
    intro x hx
    rcases List.mem_or_eq_of_mem_set hx with hx | rfl
    · exact ⟨x, hx, rfl, Or.inl rfl, fun _ _ _ hu => hu⟩
    · exact ⟨o, hmem, hstep.same.2.1.symm, Or.inr ⟨rfl, rfl⟩, fun hl _ _ hu => hstep.held hl hu⟩
  rcases hstep.lacking with hbefore | hnow
  · have hlacks : ∀ {x y : Opening}, (x = y ∨ x = o' ∧ y = o) → ∀ h a, x.Lacks h a → y.Lacks h a := by
      rintro x y (rfl | ⟨rfl, rfl⟩)
      · exact fun _ _ h => h
      · exact hbefore
    refine ⟨turn, ?_⟩
    rintro x₁ hx₁ x₂ hx₂ ⟨h, a, b, hl₁, hu, hread⟩ ⟨k, c, hl₂⟩
    obtain ⟨y₁, hy₁, hid₁, hsame₁, -⟩ := hold x₁ hx₁
    obtain ⟨y₂, hy₂, hid₂, hsame₂, hheld⟩ := hold x₂ hx₂
    rw [← hid₁, ← hid₂]
    refine hturn y₁ hy₁ y₂ hy₂ ?_ ⟨k, c, hlacks hsame₂ k c hl₂⟩
    exact ⟨h, a, b, hlacks hsame₁ h a hl₁, hheld ⟨k, c, hl₂⟩ h b hu, hread⟩
  · obtain ⟨N, hN⟩ := exists_bound turn openings
    refine ⟨Function.update turn o.id N, ?_⟩
    rintro x₁ hx₁ x₂ hx₂ ⟨h, a, b, hlacks, hu, hread⟩ hl
    rcases mem_set_of_nodup hids hfound hx₁ with rfl | ⟨hmem₁, hne₁⟩
    · -- nobody reads what has no memory
      obtain ⟨y, hy, -, -, hheld⟩ := hold x₂ hx₂
      exact absurd (hs.memory y hy h b (Or.inl (hheld hl h b hu)) hread) (hnow h a hlacks)
    · rw [Function.update_of_ne hne₁]
      rcases mem_set_of_nodup hids hfound hx₂ with rfl | ⟨hmem₂, hne₂⟩
      · rw [hstep.same.2.1, Function.update_self]
        exact hN x₁ hmem₁
      · rw [Function.update_of_ne hne₂]
        exact hturn x₁ hmem₁ x₂ hmem₂ ⟨h, a, b, hlacks, hu, hread⟩ hl

omit [Scalar α] in
/-- Not everybody who waits for memory can wait for one that does so himself. -/
theorem not_of_behind (hs : n.Staggered openings) {P : Opening → Prop}
    (hp : ∀ o ∈ openings, P o → ∃ o' ∈ openings, o.Behind o' ∧ o'.Lacking ∧ P o') :
    ∀ o ∈ openings, ¬P o := by
  obtain ⟨turn, hturn⟩ := hs.turns
  obtain ⟨N, hN⟩ := exists_bound turn openings
  intro o ho
  induction hk : N - turn o.id using Nat.strong_induction_on generalizing o with
  | _ k ih =>
    intro hpo
    obtain ⟨o', ho', hbehind, hl, hpo'⟩ := hp o ho hpo
    have hlt := hturn o ho o' ho' hbehind hl
    have hlt' := hN o' ho'
    exact ih (N - turn o'.id) (by omega) o' ho' rfl hpo'

end Staggered

end Node

end TiledTensor
