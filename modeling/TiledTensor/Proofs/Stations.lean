import TiledTensor.Node.Locks
import TiledTensor.Proofs.Steps
import TiledTensor.Proofs.Actions

/-!
# Runs lock by lock

What can happen on a rank whose buffers are opened one by one: something that the program does, or a
move of the rank by itself.  `Station.Goes` says once what each of them takes and leaves.  A run is
any sequence of such moves on all ranks, with the same histories and the same mail as the runs in
which a task opens its buffers at once.

The holder of an accessor can do nothing with it before its buffer is open, and cannot give it up
while it is being opened.
-/

namespace TiledTensor

variable {α : Type}

namespace Station

/-! ## Moves -/

/-- Something that happens on a rank. -/
inductive Motion (α : Type)
  /-- The program does something. -/
  | act (a : Act α)
  /-- The scheduler takes an event. -/
  | take
  /-- The scheduler starts a task that opens no buffer. -/
  | start
  | begin (c : Opener) (i : Nat)
  | lock (i : Nat)
  | finish (i : Nat)

/-- The rank makes the move by itself. -/
def Motion.own : Motion α → Bool
  | act _ => false
  | take | start | begin .. | lock _ | finish _ => true

/-- The openings that are left after the program has done something. -/
def left (openings : List Opening) : Act α → List Opening
  | .release id => openings.filter fun o => o.id ≠ id
  | _ => openings

variable [Scalar α]

/-- What the program can do. -/
def allows (s : Station α) : Act α → Bool
  | .call _ | .acquire .. => true
  | .release id => s.openings.all fun o => decide (o.id = id → o.full = true)
  | .look id | .put id _ => s.openings.any fun o => decide (o.id = id) && o.full
  | .take | .work _ | .arrive _ => false

/-- What a move does, if it is possible. -/
def move (gives : Bool) (net : Cluster) (s : Station α) : Motion α → Option (Cluster × Station α)
  | .act a =>
    if s.allows a then
      (s.node.act net a).map fun (net, n) =>
        (net, { s with node := n, openings := left s.openings a })
    else none
  | .take => s.take.map fun s => (net, s)
  | .start => s.start net
  | .begin c i => (s.begin net c i).map fun s => (net, s)
  | .lock i => (s.lock gives i).map fun s => (net, s)
  | .finish i => s.finish net i

/-- What it takes for a move to be possible. -/
inductive Goes (gives : Bool) (net : Cluster) (s : Station α) :
    Motion α → Cluster → Station α → Prop
  | act {a net' n'} (allowed : s.allows a = true) (ok : s.node.act net a = some (net', n')) :
      Goes gives net s (.act a) net' { s with node := n', openings := left s.openings a }
  | stop {scheduler e events f} (idle : s.starting = []) (running : s.node.scheduler = some scheduler)
      (oldest : s.node.events = e :: events) (fault : scheduler.react e = .error f) :
      Goes gives net s .take net { s with node := ({ s.node with events } : Node α).stop }
  | take {scheduler e events p} (idle : s.starting = []) (running : s.node.scheduler = some scheduler)
      (oldest : s.node.events = e :: events) (ok : scheduler.react e = .ok p) :
      Goes gives net s .take net { s with
        node := ({ s.node with events, scheduler := some p.1 } : Node α).pass p.2.passed
        starting := p.2.started }
  | start {t rest} (next : s.starting = t :: rest) (opens : s.opening net .scheduler 0 = none) :
      Goes gives net s .start (Node.start net s.node t).1
        (s.resume (Node.start net s.node t).2 rest)
  | begin {c i o} (opens : s.opening net c i = some o) (ready : s.ready c = true)
      (new : o.id ∉ s.openings.map (·.id)) :
      Goes gives net s (.begin c i) net { s with openings := s.openings ++ [o] }
  | lock {i o} (found : s.openings[i]? = some o) (more : o.ended = false)
      (free : o.asks.all (s.free gives) = true) :
      Goes gives net s (.lock i) net
        { s with node := (o.step s.node).1, openings := s.openings.set i (o.step s.node).2 }
  | run {i j o w n'} (found : s.openings[i]? = some o) (opener : o.opener = .worker)
      (ended : o.ended = true) (ready : s.node.work[j]? = some w) (id : w.id = o.id)
      (ok : s.node.runWork j = some n') :
      Goes gives net s (.finish i) net { s with node := n', openings := s.openings.eraseIdx i }
  | dispatch {i o t rest} (found : s.openings[i]? = some o) (opener : o.opener = .scheduler)
      (ended : o.ended = true) (next : s.starting = t :: rest) :
      Goes gives net s (.finish i) (Node.start net s.node t).1
        ({ s with openings := s.openings.eraseIdx i }.resume (Node.start net s.node t).2 rest)
  | receive {i j o a net' n'} (found : s.openings[i]? = some o) (opener : o.opener = .receiver)
      (ended : o.ended = true) (place : j = s.node.arrivals.findIdx fun a => a.id == o.id)
      (ready : s.node.arrivals[j]? = some a) (id : a.id = o.id)
      (ok : Node.takeArrival net s.node j = some (net', n')) :
      Goes gives net s (.finish i) net' { s with node := n', openings := s.openings.eraseIdx i }
  | giveUp {i o} (found : s.openings[i]? = some o) (opener : o.opener = .holder)
      (ended : o.ended = true) (failed : o.full = false) :
      Goes gives net s (.finish i) net
        { s with node := s.node.release o.id, openings := s.openings.eraseIdx i }

variable {gives : Bool} {net net' : Cluster} {s s' : Station α} {mv : Motion α}

omit [Scalar α] in
/-- The position of the entry with a number. -/
theorem id_of_findIdx {β : Type} {l : List β} {f : β → TaskId} {k : TaskId} {x : β}
    (hx : l[l.findIdx fun y => f y == k]? = some x) : f x = k := by
  obtain ⟨hlt, rfl⟩ := List.getElem?_eq_some_iff.mp hx
  exact beq_iff_eq.mp (List.findIdx_getElem (w := hlt))

theorem goes_of_finish {i : Nat} (h : s.finish net i = some (net', s')) :
    s.Goes gives net (.finish i) net' s' := by
  unfold finish at h
  cases hfound : s.openings[i]? with
  | none =>
    rw [hfound] at h
    cases h
  | some o =>
    rw [hfound] at h
    dsimp only at h
    by_cases hended : o.ended = true
    · rw [if_pos hended] at h
      cases hopener : o.opener with
      | worker =>
        rw [hopener] at h
        obtain ⟨n, hrun, heq⟩ := Option.map_eq_some_iff.mp h
        cases heq
        obtain ⟨w, hw, -⟩ := Node.runWork_eq_some_iff.mp hrun
        exact .run hfound hopener hended hw (id_of_findIdx hw) hrun
      | scheduler =>
        rw [hopener] at h
        unfold startNext at h
        dsimp only at h
        split at h
        · cases h
        · rename_i t rest hnext
          cases h
          exact .dispatch hfound hopener hended hnext
      | receiver =>
        rw [hopener] at h
        obtain ⟨⟨net₁, n⟩, htake, heq⟩ := Option.map_eq_some_iff.mp h
        cases heq
        obtain ⟨a, c, ha, -⟩ := Node.takeArrival_eq_some_iff.mp htake
        exact .receive hfound hopener hended rfl ha (id_of_findIdx ha) htake
      | holder =>
        rw [hopener] at h
        dsimp only at h
        by_cases hfull : o.full = true
        · rw [if_pos hfull] at h
          cases h
        · rw [if_neg hfull] at h
          cases h
          exact .giveUp hfound hopener hended (Bool.eq_false_iff.mpr hfull)
    · rw [if_neg hended] at h
      cases h

theorem goes_of_move (h : s.move gives net mv = some (net', s')) :
    s.Goes gives net mv net' s' := by
  cases mv with
  | act a =>
    unfold move at h
    dsimp only at h
    split at h
    · rename_i hallowed
      obtain ⟨⟨net₁, n⟩, hact, heq⟩ := Option.map_eq_some_iff.mp h
      cases heq
      exact .act hallowed hact
    · cases h
  | take =>
    obtain ⟨s₁, htake, heq⟩ := Option.map_eq_some_iff.mp h
    cases heq
    unfold take at htake
    split at htake
    · rename_i scheduler e events hidle hrunning holdest
      dsimp only at htake
      split at htake
      · rename_i f hfault
        cases htake
        exact .stop hidle hrunning holdest hfault
      · rename_i scheduler' r hok
        cases htake
        exact .take hidle hrunning holdest hok
    · cases htake
  | start =>
    change s.start net = _ at h
    unfold start at h
    split at h
    · rename_i hopens
      unfold startNext at h
      split at h
      · cases h
      · rename_i t rest hnext
        cases h
        exact .start hnext (Option.isNone_iff_eq_none.mp hopens)
    · cases h
  | begin c i =>
    obtain ⟨s₁, hbegin, heq⟩ := Option.map_eq_some_iff.mp h
    cases heq
    unfold begin at hbegin
    split at hbegin
    · cases hbegin
    · rename_i o hopens
      split at hbegin
      · rename_i hready
        cases hbegin
        rw [Bool.and_eq_true, decide_eq_true_iff] at hready
        exact .begin hopens hready.1 hready.2
      · cases hbegin
  | lock i =>
    obtain ⟨s₁, hlock, heq⟩ := Option.map_eq_some_iff.mp h
    cases heq
    unfold lock at hlock
    split at hlock
    · cases hlock
    · rename_i o hfound
      split at hlock
      · rename_i hfree
        cases hlock
        rw [Bool.and_eq_true, Bool.not_eq_true'] at hfree
        exact .lock hfound hfree.1 hfree.2
      · cases hlock
  | finish i => exact goes_of_finish h

/-! ## When no move is left -/

/-- The moves that the station may be able to make by itself. -/
def options (s : Station α) : List (Motion α) :=
  [.take, .start, .begin .scheduler 0] ++
    (List.range s.node.work.length).map (.begin .worker) ++
    (List.range s.node.arrivals.length).map (.begin .receiver) ++
    s.node.accessors.keys.map (.begin .holder) ++
    (List.range s.openings.length).map .lock ++ (List.range s.openings.length).map .finish

/-- The station can make no move by itself. -/
def still (gives : Bool) (net : Cluster) (s : Station α) : Bool :=
  s.options.all fun mv => (s.move gives net mv).isNone

theorem still_iff : s.still gives net = true ↔ ∀ mv : Motion α, mv.own = true →
    s.move gives net mv = none := by
  unfold still
  simp only [List.all_eq_true, Option.isNone_iff_eq_none]
  constructor
  · intro h mv hmv
    by_contra hne
    obtain ⟨⟨net', s'⟩, hmove⟩ := Option.ne_none_iff_exists'.mp hne
    have hin : ∀ mv' ∈ s.options, s.move gives net mv' = s.move gives net mv → False := by
      intro mv' hmem heq
      exact hne (heq ▸ h mv' hmem)
    cases goes_of_move hmove with
    | act => cases hmv
    | stop => exact hin .take (by simp [options]) rfl
    | take => exact hin .take (by simp [options]) rfl
    | start => exact hin .start (by simp [options]) rfl
    | @begin c i o opens =>
      cases c with
      | worker =>
        obtain ⟨w, hw, -⟩ := Option.map_eq_some_iff.mp opens
        exact hin (.begin .worker i) (by simp [options, lt_of_getElem?_eq_some hw]) rfl
      | scheduler => exact hin (.begin .scheduler 0) (by simp [options]) rfl
      | receiver =>
        obtain ⟨a, ha, -⟩ := Option.bind_eq_some_iff.mp opens
        exact hin (.begin .receiver i) (by simp [options, lt_of_getElem?_eq_some ha]) rfl
      | holder =>
        refine hin (.begin .holder i) ?_ rfl
        unfold opening at opens
        dsimp only at opens
        split at opens
        · rename_i hfind
          simp [options, Table.mem_keys_of_find? hfind]
        · cases opens
    | @lock i o found => exact hin (.lock i) (by simp [options, lt_of_getElem?_eq_some found]) rfl
    | @run i j o w n' found =>
      exact hin (.finish i) (by simp [options, lt_of_getElem?_eq_some found]) rfl
    | @dispatch i o t rest found =>
      exact hin (.finish i) (by simp [options, lt_of_getElem?_eq_some found]) rfl
    | @receive i j o a net' n' found =>
      exact hin (.finish i) (by simp [options, lt_of_getElem?_eq_some found]) rfl
    | @giveUp i o found => exact hin (.finish i) (by simp [options, lt_of_getElem?_eq_some found]) rfl
  · intro h mv hmem
    refine h mv ?_
    simp only [options, List.mem_append, List.mem_cons, List.mem_map, List.not_mem_nil,
      or_false] at hmem
    rcases hmem with (((((rfl | rfl | rfl) | ⟨i, -, rfl⟩) | ⟨i, -, rfl⟩) | ⟨i, -, rfl⟩) |
      ⟨i, -, rfl⟩) | ⟨i, -, rfl⟩ <;> rfl

/-! ## Runs of a world -/

/-- The history of a rank after one more move on it. -/
def Motion.record (s : Station α) (hist : List (Entry α)) : Motion α → List (Entry α)
  | .act a => a.record s.node hist
  | .take | .start | .begin .. | .lock _ | .finish _ => hist

/-- The mail of a rank after one more move on it. -/
def Motion.mail (net : Cluster) (s : Station α) (m : Mail) : Motion α → Mail
  | .act a => a.mail net s.node m
  | .finish i =>
    match s.openings[i]?, s.starting with
    | some ⟨.scheduler, _, _, _, _⟩, t :: _ => { m with sent := m.sent ++ s.node.posted net t }
    | some ⟨.receiver, id, _, _, _⟩, _ =>
      Act.mail net s.node m (.arrive (s.node.arrivals.findIdx fun a => a.id == id))
    | _, _ => m
  | .take | .start | .begin .. | .lock _ => m

end Station

variable [Scalar α]

/-- The ranks of a world in the beginning, with the numbers of their workers besides the first
one. -/
def World.stations (w : World α) (more : Rank → Nat) (r : Rank) : Station α :=
  { node := w.node r, more := more r }

/-- The runs of a world lock by lock, with the histories and the mail of all ranks. -/
inductive World.LockRun (w₀ : World α) (gives : Bool) (more : Rank → Nat) :
    (Rank → List (Entry α)) → (Rank → Mail) → Cluster → (Rank → Station α) → Prop
  | nil : LockRun w₀ gives more (fun _ => []) (fun _ => {}) w₀.cluster (w₀.stations more)
  | snoc {hist mail net st net' s'} (r : Rank) (mv : Station.Motion α) (bound : r < w₀.size)
      (run : LockRun w₀ gives more hist mail net st)
      (step : (st r).move gives net mv = some (net', s')) :
      LockRun w₀ gives more (Function.update hist r (mv.record (st r) (hist r)))
        (Function.update mail r (mv.mail net (st r) (mail r))) net' (Function.update st r s')

namespace World

variable {w₀ : World α} {gives : Bool} {more : Rank → Nat}

/-- Lets ranks move one after the other, and keeps their histories and their mail. -/
def trace (size : Nat) (gives : Bool) (hist : Rank → List (Entry α)) (mail : Rank → Mail)
    (net : Cluster) (st : Rank → Station α) : List (Rank × Station.Motion α) →
      Option ((Rank → List (Entry α)) × (Rank → Mail) × Cluster × (Rank → Station α))
  | [] => some (hist, mail, net, st)
  | (r, mv) :: moves =>
    if r < size then
      ((st r).move gives net mv).bind fun p =>
        trace size gives (Function.update hist r (mv.record (st r) (hist r)))
          (Function.update mail r (mv.mail net (st r) (mail r))) p.1 (Function.update st r p.2) moves
    else none

theorem LockRun.trace {hist hist' : Rank → List (Entry α)} {mail mail' : Rank → Mail}
    {net net' : Cluster} {st st' : Rank → Station α} {moves : List (Rank × Station.Motion α)}
    (run : w₀.LockRun gives more hist mail net st)
    (h : World.trace w₀.size gives hist mail net st moves = some (hist', mail', net', st')) :
    w₀.LockRun gives more hist' mail' net' st' := by
  induction moves generalizing hist mail net st with
  | nil =>
    cases h
    exact run
  | cons p moves ih =>
    obtain ⟨r, mv⟩ := p
    unfold World.trace at h
    split at h
    · rename_i hr
      obtain ⟨q, hmove, hrest⟩ := Option.bind_eq_some_iff.mp h
      exact ih (run.snoc r mv hr hmove) hrest
    · cases h

/-- An operation that a rank was asked for is one of those that it was given. -/
theorem mem_of_trace {size : Nat} {hist hist' : Rank → List (Entry α)} {mail mail' : Rank → Mail}
    {net net' : Cluster} {st st' : Rank → Station α} {moves : List (Rank × Station.Motion α)}
    (h : World.trace size gives hist mail net st moves = some (hist', mail', net', st')) {r : Rank}
    {id : TaskId} {op : Op α} (hop : .task id op ∈ hist' r) :
    .task id op ∈ hist r ∨ (r, .act (.call (.submit op))) ∈ moves := by
  induction moves generalizing hist mail net st with
  | nil =>
    cases h
    exact Or.inl hop
  | cons p moves ih =>
    obtain ⟨q, mv⟩ := p
    unfold World.trace at h
    split at h
    · obtain ⟨p, -, hrest⟩ := Option.bind_eq_some_iff.mp h
      rcases ih hrest with hmem | hmem
      · by_cases hq : r = q
        · subst hq
          rw [Function.update_self] at hmem
          cases mv with
          | act a =>
            rcases a.task_of_record hmem with hmem | rfl
            · exact Or.inl hmem
            · exact Or.inr List.mem_cons_self
          | take | start | begin | lock | finish => exact Or.inl hmem
        · rw [Function.update_of_ne hq] at hmem
          exact Or.inl hmem
      · exact Or.inr (List.mem_cons_of_mem _ hmem)
    · cases h

end World

end TiledTensor
