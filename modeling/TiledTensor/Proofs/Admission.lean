import TiledTensor.Proofs.Lives
import Mathlib.Data.List.Basic

/-!
# What a rank admits

A submission is checked in three stages: the device and the codelet, the buffers against one
another, and each buffer against what this rank may do with it.  The first check that fails names
the error, and nothing has been changed by then.  `Node.Legal` says what passes all checks, without
their order; `Node.FirstFailure` says which check comes first among those that fail, and the error
it reports.

A rank that is open queues exactly the legal operations, one task each; every other operation leaves
the rank as it was.
-/

namespace TiledTensor

/-! ## Buffers against one another -/

/-- The positions `i < j` hold the same data buffer, under accesses one of which writes. -/
structure Offends (operands : List Operand) (i j : Nat) (h : HandleId) (a b : Access) : Prop where
  lt : i < j
  left : operands[i]? = some (.data h a)
  right : operands[j]? = some (.data h b)
  writes : a.writes = true ∨ b.writes = true

/-- No data buffer occurs twice unless all its accesses leave it as it is. -/
def Unshared (operands : List Operand) : Prop := ∀ i j h a b, ¬Offends operands i j h a b

/-- What is reported of a buffer that occurs twice. -/
def sharingError (h : HandleId) (a b : Access) : TaskError :=
  if a = .write ∨ b = .write then .writtenTwice h else .updatedTwice h

/-- A pair of positions comes before another in the order of their first and then of their second
components. -/
def PairBefore (i' j' i j : Nat) : Prop := i' < i ∨ i' = i ∧ j' < j

variable {operands rest : List Operand} {x y : Operand} {e e' : TaskError} {h : HandleId}
  {a b : Access} {i j : Nat}

theorem offends_cons_zero : Offends (x :: rest) 0 (j + 1) h a b ↔
    x = .data h a ∧ rest[j]? = some (.data h b) ∧ (a.writes = true ∨ b.writes = true) := by
  constructor
  · rintro ⟨-, hx, hy, hw⟩
    rw [List.getElem?_cons_zero, Option.some.injEq] at hx
    rw [List.getElem?_cons_succ] at hy
    exact ⟨hx, hy, hw⟩
  · rintro ⟨rfl, hy, hw⟩
    exact ⟨Nat.succ_pos j, rfl, by rwa [List.getElem?_cons_succ], hw⟩

theorem offends_cons_succ :
    Offends (x :: rest) (i + 1) (j + 1) h a b ↔ Offends rest i j h a b := by
  constructor
  · rintro ⟨hlt, hx, hy, hw⟩
    exact ⟨by omega, by rwa [List.getElem?_cons_succ] at hx, by rwa [List.getElem?_cons_succ] at hy, hw⟩
  · rintro ⟨hlt, hx, hy, hw⟩
    exact ⟨by omega, by rwa [List.getElem?_cons_succ], by rwa [List.getElem?_cons_succ], hw⟩

theorem Node.clash_eq_some_iff : Node.clash x y = some e ↔ ∃ h a b, x = .data h a ∧ y = .data h b ∧
    (a.writes = true ∨ b.writes = true) ∧ e = sharingError h a b := by
  cases x with
  | scratch k => simp [Node.clash]
  | data h a =>
    cases y with
    | scratch k => simp [Node.clash]
    | data k b =>
      constructor
      · intro hc
        obtain rfl : h = k := by
          by_contra hne
          rw [Node.clash, if_pos hne] at hc
          exact Option.some_ne_none e hc.symm
        refine ⟨h, a, b, rfl, rfl, ?_⟩
        cases a <;> cases b <;> simp_all [Node.clash, sharingError, Access.writes]
      · rintro ⟨h', a', b', hx, hy, hw, rfl⟩
        obtain ⟨rfl, rfl⟩ := Operand.data.inj hx
        obtain ⟨rfl, rfl⟩ := Operand.data.inj hy
        cases a <;> cases b <;> simp_all [Node.clash, sharingError, Access.writes]

/-- The first pair that clashes is the first that offends. -/
theorem Node.exists_of_firstClash (hc : Node.firstClash operands = some e) :
    ∃ i j h a b, Offends operands i j h a b ∧ e = sharingError h a b ∧
      ∀ i' j' h' a' b', PairBefore i' j' i j → ¬Offends operands i' j' h' a' b' := by
  induction operands with
  | nil => exact absurd hc (by simp [Node.firstClash])
  | cons x rest ih =>
    rw [Node.firstClash] at hc
    cases hhead : rest.findSome? (Node.clash x) with
    | some e' =>
      rw [hhead, Option.some_or, Option.some.injEq] at hc
      subst hc
      obtain ⟨before, y, after, rfl, hy, hbefore⟩ := List.findSome?_eq_some_iff.mp hhead
      obtain ⟨h, a, b, rfl, rfl, hw, rfl⟩ := Node.clash_eq_some_iff.mp hy
      refine ⟨0, before.length + 1, h, a, b, offends_cons_zero.mpr ⟨rfl, by simp, hw⟩, rfl, ?_⟩
      rintro i' j' h' a' b' (hi | ⟨rfl, hj⟩) hoff
      · exact absurd hi (Nat.not_lt_zero i')
      · obtain ⟨k, rfl⟩ := Nat.exists_eq_succ_of_ne_zero (Nat.ne_of_gt hoff.lt)
        obtain ⟨hx, hy', hw'⟩ := offends_cons_zero.mp hoff
        rw [List.getElem?_append_left (by omega)] at hy'
        have hnone := hbefore _ (List.mem_of_getElem? hy')
        rw [Node.clash_eq_some_iff.mpr ⟨h', a', b', hx, rfl, hw', rfl⟩] at hnone
        exact absurd hnone (Option.some_ne_none _)
    | none =>
      rw [hhead, Option.none_or] at hc
      obtain ⟨i, j, h, a, b, hoff, rfl, hfirst⟩ := ih hc
      refine ⟨i + 1, j + 1, h, a, b, offends_cons_succ.mpr hoff, rfl, ?_⟩
      intro i' j' h' a' b' hb hoff'
      obtain ⟨l, rfl⟩ := Nat.exists_eq_succ_of_ne_zero (Nat.ne_of_gt (Nat.zero_lt_of_lt hoff'.lt))
      cases i' with
      | zero =>
        obtain ⟨hx, hy, hw⟩ := offends_cons_zero.mp hoff'
        have hnone := List.findSome?_eq_none_iff.mp hhead _ (List.mem_of_getElem? hy)
        rw [Node.clash_eq_some_iff.mpr ⟨h', a', b', hx, rfl, hw, rfl⟩] at hnone
        exact Option.some_ne_none _ hnone
      | succ k =>
        refine hfirst k l h' a' b' ?_ (offends_cons_succ.mp hoff')
        unfold PairBefore at hb ⊢
        omega

theorem Node.firstClash_eq_none_iff : Node.firstClash operands = none ↔ Unshared operands := by
  constructor
  · induction operands with
    | nil =>
      rintro - i j h a b ⟨-, hx, -, -⟩
      exact absurd hx (by simp)
    | cons x rest ih =>
      rw [Node.firstClash, Option.or_eq_none_iff, List.findSome?_eq_none_iff]
      rintro ⟨hhead, hrest⟩ i j h a b hoff
      obtain ⟨l, rfl⟩ := Nat.exists_eq_succ_of_ne_zero (Nat.ne_of_gt (Nat.zero_lt_of_lt hoff.lt))
      cases i with
      | zero =>
        obtain ⟨hx, hy, hw⟩ := offends_cons_zero.mp hoff
        have hnone := hhead _ (List.mem_of_getElem? hy)
        rw [Node.clash_eq_some_iff.mpr ⟨h, a, b, hx, rfl, hw, rfl⟩] at hnone
        exact Option.some_ne_none _ hnone
      | succ k => exact ih hrest k l h a b (offends_cons_succ.mp hoff)
  · intro hu
    cases hc : Node.firstClash operands with
    | none => rfl
    | some e =>
      obtain ⟨i, j, h, a, b, hoff, -, -⟩ := Node.exists_of_firstClash hc
      exact absurd hoff (hu i j h a b)

namespace Node

variable {α : Type} {n : Node α} {op : Op α} {device : Device}

/-! ## Buffers against the rank -/

/-- This rank may use the buffer in this way: its owner in every way, and another rank only for
reading, and only while it holds a copy or is about to. -/
def Accessible (n : Node α) (h : HandleId) : Access → Prop
  | .read => (n.handle h).owner = n.rank ∨ (n.handle h).state = .remoteCached
  | .write | .readWrite => (n.handle h).owner = n.rank
  | .scratch => True

/-- What is reported of a buffer that this rank may not use. -/
def accessError (n : Node α) (h : HandleId) (a : Access) : TaskError :=
  if a.writes then .remoteWrite n.rank h (n.handle h).owner
  else .notResident h (n.handle h).owner n.rank

theorem obstacle_eq_none_iff : n.obstacle h a = none ↔ n.Accessible h a := by
  by_cases ho : (n.handle h).owner = n.rank
  · cases a <;> simp [obstacle, Accessible, ho]
  · by_cases hs : (n.handle h).state = .remoteCached <;>
      cases a <;> simp [obstacle, Accessible, Access.writes, ho, hs]

theorem obstacle_eq_some_iff :
    n.obstacle h a = some e ↔ ¬n.Accessible h a ∧ e = n.accessError h a := by
  by_cases ho : (n.handle h).owner = n.rank
  · cases a <;> simp [obstacle, Accessible, ho]
  · by_cases hs : (n.handle h).state = .remoteCached <;>
      cases a <;> simp [obstacle, Accessible, accessError, Access.writes, ho, hs, eq_comm]

/-! ## All checks -/

/-- What a rank admits. -/
structure Legal (n : Node α) (op : Op α) (device : Device) : Prop where
  device : device = .cpu
  registered : op.name ∈ n.codelets
  unshared : Unshared op.operands
  accessible : ∀ u ∈ op.uses, n.Accessible u.1 u.2

/-- The first check that fails, with the error that it reports. Each case says of the checks before
its own that they pass. -/
inductive FirstFailure (n : Node α) (op : Op α) : Device → TaskError → Prop
  | device : FirstFailure n op .accelerator (.noDevice .accelerator)
  | codelet (hc : op.name ∉ n.codelets) : FirstFailure n op .cpu (.noCodelet op.name .cpu)
  | pair {i j : Nat} {h : HandleId} {a b : Access} (hc : op.name ∈ n.codelets)
      (offends : Offends op.operands i j h a b)
      (first : ∀ i' j' h' a' b', PairBefore i' j' i j → ¬Offends op.operands i' j' h' a' b') :
      FirstFailure n op .cpu (sharingError h a b)
  | buffer {k : Nat} {h : HandleId} {a : Access} (hc : op.name ∈ n.codelets)
      (hu : Unshared op.operands) (hk : op.uses[k]? = some (h, a)) (bars : ¬n.Accessible h a)
      (first : ∀ k' < k, ∀ u, op.uses[k']? = some u → n.Accessible u.1 u.2) :
      FirstFailure n op .cpu (n.accessError h a)

theorem rejection_eq_none_iff : n.rejection op device = none ↔ n.Legal op device := by
  cases device with
  | accelerator => exact ⟨nofun, fun hl => nomatch hl.device⟩
  | cpu =>
    unfold rejection
    dsimp only
    by_cases hc : op.name ∈ n.codelets
    · rw [if_pos hc, Option.or_eq_none_iff, firstClash_eq_none_iff, List.findSome?_eq_none_iff]
      simp only [obstacle_eq_none_iff]
      exact ⟨fun ⟨hu, ha⟩ => ⟨rfl, hc, hu, ha⟩, fun hl => ⟨hl.unshared, hl.accessible⟩⟩
    · rw [if_neg hc]
      exact ⟨nofun, fun hl => absurd hl.registered hc⟩

theorem firstFailure_of_rejection (hr : n.rejection op device = some e) :
    n.FirstFailure op device e := by
  cases device with
  | accelerator =>
    obtain rfl := Option.some.inj hr
    exact .device
  | cpu =>
    unfold rejection at hr
    dsimp only at hr
    by_cases hc : op.name ∈ n.codelets
    · rw [if_pos hc] at hr
      cases hclash : firstClash op.operands with
      | some e' =>
        rw [hclash, Option.some_or, Option.some.injEq] at hr
        obtain ⟨i, j, h, a, b, hoff, rfl, hfirst⟩ := exists_of_firstClash hclash
        exact hr ▸ .pair hc hoff hfirst
      | none =>
        rw [hclash, Option.none_or] at hr
        obtain ⟨before, ⟨h, a⟩, after, hsplit, hbar, hbefore⟩ := List.findSome?_eq_some_iff.mp hr
        obtain ⟨hbars, rfl⟩ := obstacle_eq_some_iff.mp hbar
        refine .buffer (k := before.length) hc (firstClash_eq_none_iff.mp hclash) ?_ hbars ?_
        · rw [hsplit, List.getElem?_append_right (Nat.le_refl _), Nat.sub_self]
          rfl
        · intro k' hk' u hu
          rw [hsplit, List.getElem?_append_left hk'] at hu
          exact obstacle_eq_none_iff.mp (hbefore u (List.mem_of_getElem? hu))
    · rw [if_neg hc, Option.some.injEq] at hr
      exact hr ▸ .codelet hc

/-- There is one first failure. -/
theorem FirstFailure.unique (h₁ : n.FirstFailure op device e) (h₂ : n.FirstFailure op device e') :
    e = e' := by
  cases h₁ with
  | device =>
    cases h₂
    rfl
  | codelet hc =>
    cases h₂ with
    | codelet => rfl
    | pair hc' => exact absurd hc' hc
    | buffer hc' => exact absurd hc' hc
  | @pair i j h a b hc hoff hfirst =>
    cases h₂ with
    | codelet hc' => exact absurd hc hc'
    | @pair i' j' h' a' b' _ hoff' hfirst' =>
      have hle : ¬PairBefore i' j' i j := fun hb => hfirst _ _ _ _ _ hb hoff'
      have hge : ¬PairBefore i j i' j' := fun hb => hfirst' _ _ _ _ _ hb hoff
      have hij : i = i' ∧ j = j' := by
        unfold PairBefore at hle hge
        omega
      obtain ⟨rfl, rfl⟩ := hij
      have hl := Option.some.inj (hoff.left.symm.trans hoff'.left)
      have hr := Option.some.inj (hoff.right.symm.trans hoff'.right)
      obtain ⟨rfl, rfl⟩ := Operand.data.inj hl
      obtain ⟨-, rfl⟩ := Operand.data.inj hr
      rfl
    | buffer _ hu => exact absurd hoff (hu _ _ _ _ _)
  | @buffer k h a hc hu hk hbars hfirst =>
    cases h₂ with
    | codelet hc' => exact absurd hc hc'
    | pair _ hoff => exact absurd hoff (hu _ _ _ _ _)
    | @buffer k' h' a' _ _ hk' hbars' hfirst' =>
      have hle : ¬k' < k := fun hlt => hbars' (hfirst k' hlt _ hk')
      have hge : ¬k < k' := fun hlt => hbars (hfirst' k hlt _ hk)
      obtain rfl : k = k' := by omega
      obtain ⟨rfl, rfl⟩ := Prod.mk.inj (Option.some.inj (hk.symm.trans hk'))
      rfl

theorem rejection_eq_some_iff : n.rejection op device = some e ↔ n.FirstFailure op device e := by
  refine ⟨firstFailure_of_rejection, fun hf => ?_⟩
  cases hr : n.rejection op device with
  | some e' => rw [(firstFailure_of_rejection hr).unique hf]
  | none =>
    have hl := rejection_eq_none_iff.mp hr
    cases hf with
    | device => exact nomatch hl.device
    | codelet hc => exact absurd hl.registered hc
    | pair _ hoff => exact absurd hoff (hl.unshared _ _ _ _ _)
    | buffer _ _ hk hbars => exact absurd (hl.accessible _ (List.mem_of_getElem? hk)) hbars

/-! ## What a submission changes -/

/-- The buffers that an operation writes are marked, and nothing else about any buffer changes. -/
theorem handles_markWritten (n : Node α) (uses : List (HandleId × Access)) :
    (n.markWritten uses).handles = n.handles.mapIdx fun h e =>
      if ∃ u ∈ uses, u.1 = h ∧ u.2.writes = true then { e with state := .localValid } else e := by
  induction uses generalizing n with
  | nil =>
    refine List.ext_getElem? fun h => ?_
    simp [markWritten]
  | cons u uses ih =>
    rw [markWritten, List.foldl_cons]
    refine (ih _).trans (List.ext_getElem? fun h => ?_)
    rw [List.getElem?_mapIdx, List.getElem?_mapIdx]
    simp only [List.exists_mem_cons_iff]
    by_cases hw : u.2.writes = true
    · rw [if_pos hw, setHandle, List.getElem?_set]
      by_cases hu : u.1 = h
      · subst hu
        by_cases hlt : u.1 < n.handles.length
        · simp [hw, hlt, handle, Handle.markWritten]
        · simp [hlt]
      · simp only [hu, false_and, false_or, if_false]
    · simp only [hw, Bool.false_eq_true, and_false, false_or, if_false]

/-- A rank once an operation has been queued: the buffers that it writes hold their only valid value
here, and one task with its accesses goes to the scheduler. -/
def queued (n : Node α) (op : Op α) : Node α :=
  { n with
    handles := n.handles.mapIdx fun h e =>
      if ∃ u ∈ op.uses, u.1 = h ∧ u.2.writes = true then { e with state := .localValid } else e
    events := n.events ++ [.submit ⟨n.nextTask, op.name, op.uses, .compute op⟩]
    nextTask := n.nextTask + 1 }

theorem submitOn_of_legal (hn : n.scheduler.isSome = true) (hl : n.Legal op device) :
    n.submitOn op device = (n.queued op, .ok ()) := by
  have hm := (onlyBuffers_markWritten n op.uses).eq
  have hopen : (n.markWritten op.uses).scheduler.isSome = true := by rw [hm]; exact hn
  unfold submitOn enqueue post queued
  rw [rejection_eq_none_iff.mpr hl]
  dsimp only
  rw [if_pos hopen, if_pos hopen, hm, handles_markWritten]
  rfl

theorem submitOn_of_firstFailure (hf : n.FirstFailure op device e) :
    n.submitOn op device = (n, .error e) := by
  unfold submitOn
  rw [rejection_eq_some_iff.mpr hf]

/-- On an open rank, what is legal is queued as one task with the accesses of its buffers, and
exactly the buffers that it writes become valid here alone.  What is not legal is refused with the
error of the first check that fails, and leaves no trace. -/
theorem submitOn_admits_exactly_legal (hn : n.scheduler.isSome = true) (op : Op α) (device : Device) :
    ((n.submitOn op device).2 = .ok () ↔ n.Legal op device) ∧
    (∀ e, (n.submitOn op device).2 = .error e ↔ n.FirstFailure op device e) ∧
    (¬n.Legal op device → (n.submitOn op device).1 = n) ∧
    (n.Legal op device → (n.submitOn op device).1 = n.queued op) := by
  cases hr : n.rejection op device with
  | some e =>
    have hf := rejection_eq_some_iff.mp hr
    have hnot : ¬n.Legal op device := fun hl => by
      rw [rejection_eq_none_iff.mpr hl] at hr
      exact Option.some_ne_none e hr.symm
    rw [submitOn_of_firstFailure hf]
    refine ⟨⟨nofun, fun hl => absurd hl hnot⟩, fun e' => ?_, fun _ => rfl, fun hl => absurd hl hnot⟩
    rw [Except.error.injEq]
    exact ⟨fun he => he ▸ hf, hf.unique⟩
  | none =>
    have hl := rejection_eq_none_iff.mp hr
    rw [submitOn_of_legal hn hl]
    refine ⟨⟨fun _ => hl, fun _ => rfl⟩, fun e => ?_, fun hnot => absurd hl hnot, fun _ => rfl⟩
    rw [← rejection_eq_some_iff, hr]
    exact ⟨nofun, nofun⟩

/-- Rank 0 of two owns the first buffer, holds a copy of the second and knows no value of the
third. -/
def clerk : Node (ElementType.Value .i64) :=
  { rank := 0, size := 2, codelets := ["tally"]
    handles := [.new 1 0 (some ⟨7⟩), { Handle.new 1 1 (some ⟨8⟩) with state := .remoteCached },
      .new 1 1 (some ⟨9⟩)] }

/-- An operation that reads the second buffer twice. What it computes does not matter here. -/
def rereading : Op (ElementType.Value .i64) :=
  ⟨"tally", [.data 1 .read, .scratch 8, .data 0 .readWrite, .data 1 .read], .ok⟩

/-- An operation that reads the first buffer and writes it too, and reads the third. -/
def rewriting : Op (ElementType.Value .i64) :=
  ⟨"tally", [.data 0 .read, .data 2 .read, .data 0 .readWrite], .ok⟩

/-- A buffer that is only read may occur twice, and a copy that is held can be read.  A buffer that
is also written may not, and that is reported before the buffer that is missing. -/
theorem submitOn_admits_exactly_legal_of_repeats :
    clerk.scheduler.isSome = true ∧ clerk.Legal rereading .cpu ∧
    (clerk.submitOn rereading .cpu).1.handles.map (·.state) =
      [.localValid, .remoteCached, .uninitialized] ∧
    clerk.FirstFailure rewriting .cpu (.updatedTwice 0) ∧
    (clerk.submitOn rewriting .cpu).1 = clerk := by
  obtain ⟨haccept, -, -, hqueued⟩ := submitOn_admits_exactly_legal (n := clerk) rfl rereading .cpu
  have hlegal := haccept.mp rfl
  obtain ⟨hrefuse, herror, hsame, -⟩ :=
    submitOn_admits_exactly_legal (n := clerk) rfl rewriting .cpu
  have hillegal : ¬clerk.Legal rewriting .cpu := fun hl => nomatch hrefuse.mpr hl
  refine ⟨rfl, hlegal, ?_, (herror _).mp rfl, hsame hillegal⟩
  rw [hqueued hlegal]
  rfl

end Node

end TiledTensor
