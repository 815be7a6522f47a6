import TiledTensor.Proofs.Courses

/-!
# Tidings of a copy

A rank keeps one mark for its copy of another rank's buffer, and three things change it: a transfer
sets it when it is called, although the copy is still to come; a flush takes it away; and so does a
receive that fails, whichever transfer it was for.

What becomes of a copy is told by `tidings`, and how it stands by their fold `standing`.
-/

namespace TiledTensor

/-- What becomes of the copy of a buffer. -/
inductive Tiding
  /-- A transfer is called for which task `k` is to receive the copy. -/
  | asked (k : TaskId)
  | flushed
  /-- Task `k` has received a payload and put it into the buffer. -/
  | arrived (k : TaskId) (payload : Payload)
  /-- The receive of task `k` has failed. -/
  | failed (k : TaskId)
  deriving DecidableEq

/-- What becomes of a copy by a call, and not by a message. -/
def Tiding.called : Tiding → Bool
  | asked _ | flushed => true
  | arrived _ _ | failed _ => false

/-- How the copy of a buffer stands. -/
inductive Standing
  /-- None was asked for since the last flush. -/
  | none
  /-- Task `k` is to receive it. -/
  | coming (k : TaskId)
  /-- Task `k` has received it. -/
  | here (k : TaskId) (payload : Payload)
  /-- It has been given up. -/
  | lost
  deriving DecidableEq

namespace Standing

/-- What tidings change. -/
def pass : Standing → Tiding → Standing
  | _, .asked k => .coming k
  | _, .flushed => .none
  | .none, .failed _ => .none
  | _, .failed _ => .lost
  | .coming k, .arrived j payload => if j = k then .here k payload else .coming k
  | s, .arrived _ _ => s

/-- The task that receives the copy, unless there is none or it has been given up. -/
def task? : Standing → Option TaskId
  | coming k | here k _ => some k
  | none | lost => Option.none

variable {s : Standing} {t : Tiding} {j k : TaskId}

@[simp] theorem pass_asked (s : Standing) (k : TaskId) : s.pass (.asked k) = .coming k := by
  cases s <;> rfl

@[simp] theorem pass_flushed (s : Standing) : s.pass .flushed = .none := by
  cases s <;> rfl

@[simp] theorem task_pass_failed (s : Standing) (k : TaskId) :
    (s.pass (.failed k)).task? = Option.none := by
  cases s <;> rfl

theorem pass_failed (h : s ≠ .none) (k : TaskId) : s.pass (.failed k) = .lost := by
  cases s with
  | none => exact absurd rfl h
  | _ => rfl

theorem pass_coming (k j : TaskId) (p : Payload) : (coming k).pass (.arrived j p) =
    if j = k then here k p else coming k := rfl

/-- Messages do not tell whether a copy was asked for. -/
theorem pass_eq_none_iff (ht : t.called = false) : s.pass t = .none ↔ s = .none := by
  cases t with
  | asked k => cases ht
  | flushed => cases ht
  | failed k =>
    by_cases hs : s = .none
    · rw [hs]
      rfl
    · rw [pass_failed hs]
      exact iff_of_false nofun hs
  | arrived j p =>
    cases s with
    | coming k =>
      rw [pass_coming]
      refine iff_of_false ?_ nofun
      split <;> exact nofun
    | _ => exact Iff.rfl

end Standing

/-- How a copy stands after some tidings. -/
def standing (ts : List Tiding) : Standing := ts.foldl .pass .none

theorem standing_append_singleton (ts : List Tiding) (t : Tiding) :
    standing (ts ++ [t]) = (standing ts).pass t :=
  List.foldl_append

/-- Messages do not tell whether a copy was asked for. -/
theorem standing_append_eq_none_iff {ts us : List Tiding} (hus : ∀ t ∈ us, t.called = false) :
    standing (ts ++ us) = .none ↔ standing ts = .none := by
  induction us using List.reverseRecOn with
  | nil => rw [List.append_nil]
  | append_singleton us t ih =>
    rw [← List.append_assoc, standing_append_singleton,
      Standing.pass_eq_none_iff (hus t (List.mem_append_right _ List.mem_cons_self))]
    exact ih fun u hu => hus u (List.mem_append_left _ hu)

/-! ## The last call -/

/-- The last that was called is the transfer for which task `k` receives the copy; `after` is what
the messages have brought since then. -/
structure LastAsked (ts : List Tiding) (k : TaskId) (after : List Tiding) : Prop where
  split : ∃ before, ts = before ++ .asked k :: after
  calls : ∀ t ∈ after, t.called = false

/-- The last that was called is a transfer, its receive has succeeded, and no receive at all has
failed since that call. -/
def Renewed (ts : List Tiding) (k : TaskId) (payload : Payload) : Prop :=
  ∃ after, LastAsked ts k after ∧ .arrived k payload ∈ after ∧ ∀ j, .failed j ∉ after

/-- The last that was called is a transfer, and a receive has failed since that call. -/
def GivenUp (ts : List Tiding) : Prop :=
  ∃ k after, LastAsked ts k after ∧ ∃ j, .failed j ∈ after

section

variable {ts after : List Tiding} {k : TaskId} {payload : Payload}

theorem lastAsked_append_asked (ts : List Tiding) (k : TaskId) :
    LastAsked (ts ++ [.asked k]) k [] :=
  ⟨⟨ts, rfl⟩, nofun⟩

theorem LastAsked.append {t : Tiding} (h : LastAsked ts k after) (ht : t.called = false) :
    LastAsked (ts ++ [t]) k (after ++ [t]) := by
  obtain ⟨⟨before, rfl⟩, hcalls⟩ := h
  refine ⟨⟨before, by rw [List.append_assoc, List.cons_append]⟩, ?_⟩
  intro u hu
  rcases List.mem_append.mp hu with hu | hu
  · exact hcalls u hu
  · exact List.mem_singleton.mp hu ▸ ht

/-- A copy that was asked for is given up once a receive has failed; before that it is to come, or
it is here. -/
theorem LastAsked.standing (h : LastAsked ts k after) :
    (∃ j, .failed j ∈ after) ∧ standing ts = .lost ∨
    (∀ j, .failed j ∉ after) ∧ (standing ts = .coming k ∨
      ∃ payload, .arrived k payload ∈ after ∧ standing ts = .here k payload) := by
  obtain ⟨⟨before, rfl⟩, hcalls⟩ := h
  induction after using List.reverseRecOn with
  | nil =>
    rw [standing_append_singleton, Standing.pass_asked]
    exact Or.inr ⟨nofun, Or.inl rfl⟩
  | append_singleton after t ih =>
    have hlast : t ∈ after ++ [t] := List.mem_append_right _ List.mem_cons_self
    have hold : ∀ {u}, u ∈ after → u ∈ after ++ [t] := fun hu => List.mem_append_left _ hu
    have ih := ih fun u hu => hcalls u (hold hu)
    rw [← List.cons_append, ← List.append_assoc, standing_append_singleton]
    cases t with
    | asked j => cases hcalls _ hlast
    | flushed => cases hcalls _ hlast
    | failed j =>
      refine Or.inl ⟨⟨j, hlast⟩, Standing.pass_failed ?_ j⟩
      rcases ih with ⟨-, hs⟩ | ⟨-, hs | ⟨p, -, hs⟩⟩ <;> rw [hs] <;> exact nofun
    | arrived j p =>
      have hnone : (∀ i, .failed i ∉ after) → ∀ i, .failed i ∉ after ++ [.arrived j p] := by
        intro hf i hin
        rcases List.mem_append.mp hin with hin | hin
        · exact hf i hin
        · cases List.mem_singleton.mp hin
      rcases ih with ⟨⟨i, hi⟩, hs⟩ | ⟨hf, hs | ⟨q, hq, hs⟩⟩ <;> rw [hs]
      · exact Or.inl ⟨⟨i, hold hi⟩, rfl⟩
      · rw [Standing.pass_coming]
        refine Or.inr ⟨hnone hf, ?_⟩
        split
        · rename_i hj
          exact Or.inr ⟨p, hj ▸ hlast, rfl⟩
        · exact Or.inl rfl
      · exact Or.inr ⟨hnone hf, Or.inr ⟨q, hold hq, rfl⟩⟩

theorem exists_lastAsked (h : standing ts ≠ .none) : ∃ k after, LastAsked ts k after := by
  induction ts using List.reverseRecOn with
  | nil => exact absurd rfl h
  | append_singleton ts t ih =>
    rw [standing_append_singleton] at h
    by_cases ht : t.called = false
    · obtain ⟨k, after, hlast⟩ := ih fun hs => h ((Standing.pass_eq_none_iff ht).mpr hs)
      exact ⟨k, after ++ [t], hlast.append ht⟩
    · cases t with
      | asked k => exact ⟨k, [], lastAsked_append_asked ts k⟩
      | flushed => exact absurd (Standing.pass_flushed _) h
      | _ => exact absurd rfl ht

theorem Renewed.task (h : Renewed ts k payload) : (standing ts).task? = some k := by
  obtain ⟨after, hlast, -, hnone⟩ := h
  rcases hlast.standing with ⟨⟨j, hj⟩, -⟩ | ⟨-, hs | ⟨p, -, hs⟩⟩
  · exact absurd hj (hnone j)
  · rw [hs]
    rfl
  · rw [hs]
    rfl

/-- A copy that is here was renewed. -/
theorem renewed_of_here (h : standing ts = .here k payload) : Renewed ts k payload := by
  have hne : standing ts ≠ .none := by rw [h]; exact nofun
  obtain ⟨j, after, hlast⟩ := exists_lastAsked hne
  rcases hlast.standing with ⟨-, hs⟩ | ⟨hnone, hs | ⟨p, hp, hs⟩⟩
  · cases h.symm.trans hs
  · cases h.symm.trans hs
  · cases h.symm.trans hs
    exact ⟨after, hlast, hp, hnone⟩

theorem standing_eq_lost_iff : standing ts = .lost ↔ GivenUp ts := by
  constructor
  · intro h
    have hne : standing ts ≠ .none := by rw [h]; exact nofun
    obtain ⟨k, after, hlast⟩ := exists_lastAsked hne
    rcases hlast.standing with ⟨hfailed, -⟩ | ⟨-, hs | ⟨p, -, hs⟩⟩
    · exact ⟨k, after, hlast, hfailed⟩
    · cases h.symm.trans hs
    · cases h.symm.trans hs
  · rintro ⟨k, after, hlast, j, hj⟩
    exact (hlast.standing.resolve_right fun h => h.1 j hj).2

end

/-! ## Tidings of a course -/

variable {α : Type} [Scalar α]

/-- How a receive that has been answered turns out. -/
def Node.outcome (n : Node α) (c : Arrival) : Receipt → List Tiding
  | .waiting => []
  | .refused _ => [.failed c.id]
  | .delivered payload =>
    match (n.openHandle c.handle).2 with
    | .ok block =>
      if block.length * Scalar.size α = payload.length then [.arrived c.id payload]
      else [.failed c.id]
    | .error _ => []

/-- What a receive fails with once the transport has answered it: the transport refuses it, or the
message does not fit the buffer. -/
def Node.failure? (n : Node α) (c : Arrival) : Receipt → Option TaskError
  | .waiting => none
  | .refused e => some (.transfer c.name e)
  | .delivered payload =>
    match (n.openHandle c.handle).2 with
    | .ok block =>
      if block.length * Scalar.size α = payload.length then none
      else some (.payload c.name (block.length * Scalar.size α) payload.length)
    | .error _ => none

/-- A receive turns out to have failed exactly if there is something that it fails with. -/
theorem Node.failed_mem_outcome_iff {n : Node α} {c : Arrival} {r : Receipt} {k : TaskId} :
    .failed k ∈ n.outcome c r ↔ k = c.id ∧ (n.failure? c r).isSome := by
  cases r with
  | waiting => simp [outcome, failure?]
  | refused e => simp [outcome, failure?]
  | delivered payload =>
    unfold outcome failure?
    cases (n.openHandle c.handle).2 with
    | error f => simp
    | ok block =>
      dsimp only
      split <;> simp

/-- What becomes of the copy of a buffer in a scene. -/
def Scene.tidings (h : HandleId) (g : Scene α) : List Tiding :=
  match g.happening with
  | .transfer j _ =>
    if j = h ∧ (g.before.handle h).state ≠ .remoteCached ∧
      (g.after.handle h).state = .remoteCached then [.asked g.before.nextTask] else []
  | .flush j => if j = h then [.flushed] else []
  | .arrive i =>
    match g.before.arrivals[i]? with
    | some c => if c.handle = h then ((g.net.receipts.find? c.ticket).map (g.before.outcome c)).getD []
      else []
    | none => []
  | _ => []

/-- What becomes of the copy of a buffer over some scenes. -/
def tidings (h : HandleId) (scenes : List (Scene α)) : List Tiding :=
  scenes.flatMap (Scene.tidings h)

theorem tidings_append_singleton (h : HandleId) (scenes : List (Scene α)) (g : Scene α) :
    tidings h (scenes ++ [g]) = tidings h scenes ++ g.tidings h := by
  unfold tidings
  rw [List.flatMap_append, List.flatMap_singleton]

section

variable {n n' : Node α} {net : Cluster} {h : HandleId} {a : Happening α}

/-- A call other than a flush tells nothing of a copy whose mark it does not change. -/
theorem tidings_of_state (ha : a.isCall = true) (hflush : a ≠ .flush h)
    (hstate : (n'.handle h).state = (n.handle h).state) :
    (Scene.mk net n a n').tidings h = [] := by
  unfold Scene.tidings
  cases a with
  | transfer j t => exact if_neg fun hc => hc.2.1 (hstate ▸ hc.2.2)
  | flush j => exact if_neg fun hj => hflush (congrArg _ hj)
  | take => cases ha
  | work i => cases ha
  | arrive i => cases ha
  | _ => rfl

/-- The end of a receive is no call. -/
theorem called_of_arrive {i : Nat} : ∀ t ∈ (Scene.mk net n (.arrive i) n').tidings h,
    t.called = false := by
  have hout : ∀ c r, ∀ t ∈ n.outcome c r, t.called = false := by
    intro c r
    cases r with
    | waiting => exact nofun
    | refused e => exact List.forall_mem_singleton.mpr rfl
    | delivered payload =>
      unfold Node.outcome
      cases (n.openHandle c.handle).2 with
      | error f => exact nofun
      | ok block =>
        dsimp only
        split <;> exact List.forall_mem_singleton.mpr rfl
  intro t ht
  unfold Scene.tidings at ht
  dsimp only at ht
  split at ht
  · split at ht
    · rename_i c _ _
      cases hr : net.receipts.find? c.ticket with
      | none =>
        rw [hr] at ht
        cases ht
      | some r =>
        rw [hr] at ht
        exact hout c r t ht
    · cases ht
  · cases ht

end

end TiledTensor
