import TiledTensor.Proofs.Queueing
import TiledTensor.Proofs.Tags

/-!
# Holding tensors

A rank makes tensors, uses the tiles of those that it holds, and gives tensors up again, each at any
time and as long as it likes before the tasks on its tiles have run.  A *tenure* of a world is any
sequence of such steps of its ranks, among the steps that the ranks make by themselves.  What has
happened on a rank is written in its diary.

Here it is shown what a rank knows by itself: where its tensors lie, that nothing is asked for on
the tiles of a tensor after it was given up, and that nobody waits for the task that retires the
tags of a tensor.
-/

namespace TiledTensor

variable {α : Type}

/-! ## Tensors and their tags -/

namespace Tensor

/-- The buffers of a tensor. -/
def handles (t : Tensor) : List HandleId := t.tiles.map (·.handle)

theorem Apart.disjoint {t t' : Tensor} (h : t.Apart t') {k : HandleId} (hk : k ∈ t.handles) :
    k ∉ t'.handles := by
  obtain ⟨tile, htile, rfl⟩ := List.mem_map.mp hk
  exact h.notMem htile

/-- The tags of a tensor follow the numbers of its buffers, which are among the first `m`. -/
structure Placed (first : Tag) (m : Nat) (t : Tensor) : Prop where
  start : ∃ h, t.tag.val = first.val + h ∧ t.handles = List.range' h t.tiles.length ∧
    h + t.tiles.length ≤ m
  fits : t.tag.val + t.tiles.length < Word.limit

namespace Placed

variable {first : Tag} {m : Nat} {t : Tensor} {h : HandleId}

theorem mono (hp : t.Placed first m) {m' : Nat} (hm : m ≤ m') : t.Placed first m' := by
  obtain ⟨k, htag, hhandles, hle⟩ := hp.start
  exact ⟨⟨k, htag, hhandles, Nat.le_trans hle hm⟩, hp.fits⟩

theorem lt (hp : t.Placed first m) (hh : h ∈ t.handles) : h < m := by
  obtain ⟨k, -, hhandles, hle⟩ := hp.start
  rw [hhandles, List.mem_range'_1] at hh
  exact Nat.lt_of_lt_of_le hh.2 hle

/-- The tags of a tensor are those of its buffers. -/
theorem contains_iff (hp : t.Placed first m) :
    t.tags.contains ⟨first.val + h⟩ = true ↔ h ∈ t.handles := by
  obtain ⟨k, htag, hhandles, -⟩ := hp.start
  rw [TagRange.contains_iff, hhandles, List.mem_range'_1, tags, htag]
  dsimp only
  omega

theorem dropTensor [Scalar α] (hp : t.Placed first m) (n : Node α) :
    n.dropTensor t = n.retire t.handles t.tags := by
  rw [Node.dropTensor, Tag.offset_eq, if_pos hp.fits]
  rfl

end Placed

/-- Tensors that are designed in two lots are designed one lot after the other. -/
theorem designs_append (first : Tag) (specs more : List (Tiling × List Rank)) :
    designs first (specs ++ more) = do
      let (tiles, next) ← designs first specs
      let (rest, stop) ← designs next more
      return (tiles ++ rest, stop) := by
  induction specs generalizing first with
  | nil =>
    show designs first more = (designs first more >>= _)
    cases designs first more <;> rfl
  | cons spec specs ih =>
    obtain ⟨tiling, owners⟩ := spec
    rw [List.cons_append, designs, designs]
    cases design tiling owners first with
    | error f => rfl
    | ok p =>
      obtain ⟨tiles, next⟩ := p
      show (designs next (specs ++ more) >>= _) = ((designs next specs >>= _) >>= _)
      rw [ih]
      cases designs next specs with
      | error f => rfl
      | ok q =>
        obtain ⟨tiles', next'⟩ := q
        show ((designs next' more >>= _) >>= _) = (designs next' more >>= _)
        cases designs next' more with
        | error f => rfl
        | ok q' =>
          show Except.ok _ = Except.ok _
          rw [List.append_assoc]

/-- What is designed first are the first tiles. -/
theorem designs_isPrefix {first next stop : Tag} {specs specs' : List (Tiling × List Rank)}
    {tiles tiles' : List Blueprint} (hspecs : specs' <+: specs)
    (h : designs first specs = .ok (tiles, stop)) (h' : designs first specs' = .ok (tiles', next)) :
    tiles' <+: tiles := by
  obtain ⟨more, rfl⟩ := hspecs
  rw [designs_append, h'] at h
  obtain ⟨p, hp, h⟩ := bind_eq_ok h
  cases hp
  obtain ⟨⟨rest, last⟩, -, h⟩ := bind_eq_ok h
  cases h
  exact List.prefix_append _ _

end Tensor

/-! ## Steps and diaries -/

/-- What all ranks do alike with tensors that are there. -/
inductive Milestone
  | line (l : Line)
  | drop (t : Tensor)
  deriving DecidableEq

def Milestone.line? : Milestone → Option Line
  | .line l => some l
  | .drop _ => none

/-- The milestone that an action is. -/
def Act.milestones (a : Act α) : List Milestone := (a.happening.line?.map .line).toList

/-- Something that a rank does that makes tensors and gives them up. -/
inductive Tending (α : Type)
  | act (a : Act α)
  | make (tiling : Tiling) (owners : List Rank)
  /-- The tensor at place `i` of those that the rank holds is given up. -/
  | drop (i : Nat)
  | wait
  | leave (b : BarrierId)

/-- What has happened on a rank. -/
structure Diary (α : Type) where
  hist : List (Entry α) := []
  mail : Mail := {}
  record : Scheduler.Record α := {}
  /-- What was made. -/
  made : List (Tiling × List Rank) := []
  /-- The first tag that has not been used. -/
  next : Tag
  held : List Tensor := []
  /-- The tensors that were given up, with the tasks that retire their tags. -/
  drops : List (TaskId × Tensor) := []
  milestones : List Milestone := []

variable [Scalar α]

/-- The diary after an action. -/
def Diary.act (d : Diary α) (net : Cluster) (n : Node α) (a : Act α) (n' : Node α) : Diary α :=
  { d with
    hist := a.record n d.hist
    mail := a.mail net n d.mail
    record := Scene.note d.record ⟨net, n, a.happening, n'⟩
    milestones := d.milestones ++ a.milestones }

/-- The operation that does nothing. -/
def Op.idle : Op α := ⟨"idle", [], fun views => .ok views⟩

/-- The diary after a tensor was given up.  In the history the task that retires its tags stands as
an operation that does nothing, since it does nothing to buffers. -/
def Diary.drop (d : Diary α) (n : Node α) (i : Nat) (t : Tensor) : Diary α :=
  { d with
    hist := d.hist ++ [.task n.nextTask .idle]
    held := d.held.eraseIdx i
    drops := d.drops ++ [(n.nextTask, t)]
    milestones := d.milestones ++ [.drop t] }

/-- What a step does, if it is possible.  An action names only tiles of tensors that the rank
holds. -/
def Node.tend (n : Node α) (net : Cluster) (d : Diary α) : Tending α →
    Option (Cluster × Node α × Diary α)
  | .act a =>
    if ∀ h ∈ a.happening.names, ∃ t ∈ d.held, h ∈ t.handles then
      (n.act net a).map fun p => (p.1, p.2, d.act net n a p.2)
    else none
  | .make tiling owners =>
    match n.makeTensor tiling owners d.next with
    | .ok (n, t, next) => some (net, n,
        { d with made := d.made ++ [(tiling, owners)], next, held := d.held ++ [t] })
    | .error _ => none
  | .drop i =>
    match d.held[i]? with
    | some t => if n.scheduler.isSome then some (net, n.dropTensor t, d.drop n i t) else none
    | none => none
  | .wait => some (net, n.wait.1, d)
  | .leave b => some (net, n.leave b, d)

/-- What it takes for a step to be possible. -/
inductive Node.Tends (n : Node α) (net : Cluster) (d : Diary α) :
    Tending α → Cluster → Node α → Diary α → Prop
  | act {net' n'} (a : Act α) (known : ∀ h ∈ a.happening.names, ∃ t ∈ d.held, h ∈ t.handles)
      (step : n.act net a = some (net', n')) :
      Tends n net d (.act a) net' n' (d.act net n a n')
  | make {n' t next} (tiling : Tiling) (owners : List Rank)
      (ok : n.makeTensor tiling owners d.next = .ok (n', t, next)) :
      Tends n net d (.make tiling owners) net n'
        { d with made := d.made ++ [(tiling, owners)], next, held := d.held ++ [t] }
  | drop {t} (i : Nat) (held : d.held[i]? = some t) (runs : n.scheduler.isSome) :
      Tends n net d (.drop i) net (n.dropTensor t) (d.drop n i t)
  | wait : Tends n net d .wait net n.wait.1 d
  | leave (b : BarrierId) : Tends n net d (.leave b) net (n.leave b) d

theorem Node.tends_of_tend {n n' : Node α} {net net' : Cluster} {d d' : Diary α} {p : Tending α}
    (h : n.tend net d p = some (net', n', d')) : n.Tends net d p net' n' d' := by
  unfold tend at h
  cases p with
  | act a =>
    dsimp only at h
    split at h
    · rename_i hknown
      obtain ⟨q, hq, heq⟩ := Option.map_eq_some_iff.mp h
      cases heq
      exact .act a hknown hq
    · cases h
  | make tiling owners =>
    dsimp only at h
    split at h
    · rename_i m t next hm
      cases h
      exact .make tiling owners hm
    · cases h
  | drop i =>
    dsimp only at h
    split at h
    · rename_i t ht
      split at h
      · rename_i hruns
        cases h
        exact .drop i ht hruns
      · cases h
    · cases h
  | wait =>
    cases h
    exact .wait
  | leave b =>
    cases h
    exact .leave b

/-- The tenures of a world, with the diaries of its ranks. -/
inductive World.Tenure (w₀ : World α) (first : Tag) : (Rank → Diary α) → World α → Prop
  | nil : Tenure w₀ first (fun _ => { next := first }) w₀
  | snoc {d w net n e} (r : Rank) (p : Tending α) (tenure : Tenure w₀ first d w)
      (exists_rank : r < w.size) (step : (w.node r).tend w.cluster (d r) p = some (net, n, e)) :
      Tenure w₀ first (Function.update d r e) { w.setNode r n with cluster := net }

namespace World

variable {w₀ w w' : World α} {first : Tag} {d d' : Rank → Diary α} {steps : List (Rank × Tending α)}

/-- Lets ranks take one step after the other, and keeps their diaries. -/
def attend (d : Rank → Diary α) (w : World α) :
    List (Rank × Tending α) → Option ((Rank → Diary α) × World α)
  | [] => some (d, w)
  | (r, p) :: steps =>
    if r < w.size then
      ((w.node r).tend w.cluster (d r) p).bind fun q =>
        attend (Function.update d r q.2.2) { w.setNode r q.2.1 with cluster := q.1 } steps
    else none

theorem Tenure.attend (tenure : w₀.Tenure first d w) (h : w.attend d steps = some (d', w')) :
    w₀.Tenure first d' w' := by
  induction steps generalizing d w with
  | nil =>
    cases h
    exact tenure
  | cons step steps ih =>
    unfold World.attend at h
    split at h
    · rename_i hr
      obtain ⟨q, hstep, hrest⟩ := Option.bind_eq_some_iff.mp h
      exact ih (tenure.snoc step.1 step.2 hr hstep) hrest
    · cases h

/-- An operation that a rank was asked for is one of those that it was given, or does nothing. -/
theorem mem_of_attend (h : w.attend d steps = some (d', w')) {r : Rank} {id : TaskId} {op : Op α}
    (hop : .task id op ∈ (d' r).hist) :
    .task id op ∈ (d r).hist ∨ (r, .act (.call (.submit op))) ∈ steps ∨ op = .idle := by
  induction steps generalizing d w with
  | nil =>
    cases h
    exact Or.inl hop
  | cons step steps ih =>
    obtain ⟨q, p⟩ := step
    unfold World.attend at h
    split at h
    · obtain ⟨⟨net, n, e⟩, hstep, hrest⟩ := Option.bind_eq_some_iff.mp h
      rcases ih hrest with hmem | hmem | hmem
      · by_cases hq : r = q
        · subst hq
          rw [Function.update_self] at hmem
          cases Node.tends_of_tend hstep with
          | act a known step =>
            rcases a.task_of_record hmem with hmem | rfl
            · exact Or.inl hmem
            · exact Or.inr (Or.inl List.mem_cons_self)
          | drop i held runs =>
            rcases List.mem_append.mp hmem with hmem | hmem
            · exact Or.inl hmem
            · cases List.mem_singleton.mp hmem
              exact Or.inr (Or.inr rfl)
          | make | wait | leave => exact Or.inl hmem
        · rw [Function.update_of_ne hq] at hmem
          exact Or.inl hmem
      · exact Or.inr (Or.inl (List.mem_cons_of_mem _ hmem))
      · exact Or.inr (Or.inr hmem)
    · cases h

end World

end TiledTensor
