import TiledTensor.Proofs.Jobs
import TiledTensor.Proofs.Tidings

/-!
# Barriers

What a rank goes through is told as a chronicle of moments: barriers are called, tasks are
submitted, started and ended, transfers fail and their failures are kept, and barriers are answered.

`Moment.Sound` says what has to have come before each moment.  Above all, when barriers are answered
everything that was submitted has ended, and the first of them is told the earliest failure that was
kept since a failure was last handed out.

That a transfer has failed is not taken from what the rank reports.  A message has failed when the
transport refuses it, and a receive when the transport refuses it or hands it a message of the wrong
length; whether the rank keeps the failure is what there is to prove.
-/

namespace TiledTensor

/-- Something that happens to a scheduler, or to a transfer that it is to be told of. -/
inductive Moment
  | called (b : BarrierId)
  | submitted (k : TaskId)
  | started (k : TaskId)
  /-- The transport refuses the message of a task or its receive, or answers the receive with a
  message that does not fit. -/
  | missed (k : TaskId) (e : TaskError)
  /-- The failure of a task is kept for a barrier. -/
  | noted (k : TaskId) (e : TaskError)
  /-- The task leaves the graph. -/
  | ended (k : TaskId)
  | answered (answers : List (BarrierId × Option TaskError))
  deriving DecidableEq

/-- The barriers that have been called, in order. -/
def calledIn (ms : List Moment) : List BarrierId :=
  ms.filterMap fun
    | .called b => some b
    | _ => none

/-- The barriers that have been answered, in order. -/
def answeredIn (ms : List Moment) : List BarrierId :=
  ms.flatMap fun
    | .answered answers => answers.map (·.1)
    | _ => []

/-- The failures that have been kept since a failure was last handed out. -/
def unreported (ms : List Moment) : List TaskError :=
  ms.foldl (fun fs m =>
    match m with
    | .noted _ e => fs ++ [e]
    | .answered answers => if answers.any (·.2.isSome) then [] else fs
    | _ => fs) []

/-- What has to have come before a moment. -/
def Moment.Sound (before : List Moment) : Moment → Prop
  | called b => .called b ∉ before
  | submitted k => .submitted k ∉ before
  | started k => .submitted k ∈ before ∧ .started k ∉ before
  | missed k _ => .started k ∈ before ∧ .ended k ∉ before
  | noted k e => .missed k e ∈ before ∧ .ended k ∉ before
  | ended k => .started k ∈ before ∧ .ended k ∉ before ∧
    ∀ e, .missed k e ∈ before → .noted k e ∈ before
  | answered answers => (∀ k, .submitted k ∈ before → .ended k ∈ before) ∧
    answeredIn before ++ answers.map (·.1) = calledIn before ∧
    ∃ (b : BarrierId) (bs : List BarrierId),
      answers = (b, (unreported before).head?) :: bs.map fun c => (c, none)

variable {α : Type}

/-- What a chronicle says about a scheduler. -/
structure Barriers (ms : List Moment) (s : Scheduler α) : Prop where
  sound : ∀ before m after, ms = before ++ m :: after → m.Sound before
  unfinished : ∀ k, s.graph.contains k = true ↔ .submitted k ∈ ms ∧ .ended k ∉ ms
  awake : s.waiters = [] ∨ s.graph.isEmpty = false
  once : (calledIn ms).Nodup
  /-- Barriers are answered in the order of their calls; those that are not answered wait. -/
  answered : calledIn ms = answeredIn ms ++ s.waiters
  failure : s.failure = (unreported ms).head?

/-! ## The chronicle -/

namespace Scheduler

/-- The task leaves the graph. -/
def left (s s' : Scheduler α) (k : TaskId) : List Moment :=
  if s.graph.contains k && !s'.graph.contains k then [.ended k] else []

/-- What an event means to a scheduler. -/
def told (s s' : Scheduler α) : Event α → List Moment
  | .submit t => [.submitted t.id]
  | .complete k => left s s' k
  | .fail k e => .noted k e :: left s s' k
  | .wait b => [.called b]

end Scheduler

section

variable [Scalar α]

/-- The failure of a message that the transport refuses as its task is started. -/
def Node.refusal (net : Cluster) (n : Node α) (t : Task α) : List (TaskId × TaskError) :=
  match t.job with
  | .send h dst tag =>
    match (n.openHandle h).2 with
    | .ok block =>
      match net.send n.rank dst tag (Scalar.encodeBlock block) with
      | .ok _ => []
      | .error e => [(t.id, .transfer t.name e)]
    | .error _ => []
  | _ => []

/-- The failures of messages that are refused as tasks are started in order. -/
def Node.refusals (net : Cluster) (n : Node α) : List (Task α) → List (TaskId × TaskError)
  | [] => []
  | t :: tasks =>
    n.refusal net t ++
      if (start net n t).2.scheduler.isSome then
        (start net n t).2.refusals (start net n t).1 tasks
      else []

/-- What happens to the scheduler in a scene. -/
def Scene.moments (g : Scene α) : List Moment :=
  match g.happening with
  | .take =>
    match g.before.scheduler, g.before.events with
    | some s, e :: events =>
      match s.react e with
      | .ok (s', r) =>
        s.told s' e ++ r.started.map (fun t => .started t.id)
          ++ (Node.refusals g.net { g.before with events, scheduler := some s' } r.started).flatMap
            (fun f => [.missed f.1 f.2, .noted f.1 f.2])
          ++ if r.passed.isEmpty then [] else [.answered r.passed]
      | .error _ => []
    | _, _ => []
  | .arrive i =>
    match g.before.arrivals[i]? with
    | some c => ((g.net.receipts.find? c.ticket).bind (g.before.failure? c)).toList.map (.missed c.id)
    | none => []
  | _ => []

/-- What happens to the scheduler over some scenes. -/
def chronicle (scenes : List (Scene α)) : List Moment := scenes.flatMap Scene.moments

theorem chronicle_append_singleton (scenes : List (Scene α)) (g : Scene α) :
    chronicle (scenes ++ [g]) = chronicle scenes ++ g.moments := by
  unfold chronicle
  rw [List.flatMap_append, List.flatMap_singleton]

end

/-! ## Moments in order -/

section

variable {ms : List Moment} {m : Moment} {k : TaskId}

/-- Every moment has what it needs before it. -/
def Sounds (ms : List Moment) : Prop := ∀ before m after, ms = before ++ m :: after → m.Sound before

theorem sounds_nil : Sounds [] := by
  intro before m after h
  cases before <;> cases h

theorem Sounds.concat (h : Sounds ms) (hm : m.Sound ms) : Sounds (ms ++ [m]) := by
  intro before x after heq
  rcases List.eq_nil_or_concat after with rfl | ⟨init, y, rfl⟩
  · obtain ⟨rfl, hx⟩ := List.append_inj' heq rfl
    obtain rfl := (List.cons_eq_cons.mp hx).1
    exact hm
  · rw [List.concat_eq_append, ← List.cons_append, ← List.append_assoc] at heq
    exact h before x init (List.append_inj' heq rfl).1

theorem calledIn_append (ms ms' : List Moment) : calledIn (ms ++ ms') = calledIn ms ++ calledIn ms' :=
  List.filterMap_append

theorem answeredIn_append (ms ms' : List Moment) :
    answeredIn (ms ++ ms') = answeredIn ms ++ answeredIn ms' :=
  List.flatMap_append

theorem mem_calledIn {b : BarrierId} : b ∈ calledIn ms ↔ .called b ∈ ms := by
  unfold calledIn
  rw [List.mem_filterMap]
  constructor
  · rintro ⟨m, hm, heq⟩
    cases m with
    | called c =>
      obtain rfl := Option.some.inj heq
      exact hm
    | _ => cases heq
  · intro hm
    exact ⟨_, hm, rfl⟩

end

/-! ## Answers -/

/-- The barrier that an event calls. -/
def Event.barrier? : Event α → Option BarrierId
  | .wait b => some b
  | _ => none

/-- The failure that an event reports. -/
def Event.failure? : Event α → Option TaskError
  | .fail _ e => some e
  | _ => none

namespace Scheduler

variable {s : Scheduler α}

theorem map_fst_answers (f : Option TaskError) (bs : List BarrierId) :
    (answers f bs).map (·.1) = bs := by
  cases bs with
  | nil => rfl
  | cons b bs =>
    show b :: (bs.map _).map _ = _
    rw [List.map_map]
    exact congrArg (b :: ·) (List.map_id bs)

/-- What has become of some waiting barriers and a failure: nothing, or all barriers are answered
and the first is told of the failure. -/
inductive Settles (waiters : List BarrierId) (failure : Option TaskError)
    (p : Scheduler α × Reaction α) : Prop
  | wait (passed : p.2.passed = []) (waiters : p.1.waiters = waiters)
      (failure : p.1.failure = failure)
  | answer (b : BarrierId) (bs : List BarrierId) (called : waiters = b :: bs)
      (passed : p.2.passed = answers failure waiters) (empty : p.1.graph.isEmpty = true)
      (waiters : p.1.waiters = []) (failure : p.1.failure = none)

theorem settles_settle (s : Scheduler α) (tasks : List (Task α)) :
    Settles s.waiters s.failure (s.settle tasks) := by
  unfold settle
  split
  · rename_i hempty
    cases hw : s.waiters with
    | nil => exact .wait rfl rfl rfl
    | cons b bs => exact .answer b bs rfl rfl hempty rfl rfl
  · exact .wait rfl rfl rfl

theorem settles_complete {p : Scheduler α × Reaction α} {k : TaskId} (h : s.complete k = .ok p) :
    Settles s.waiters s.failure p := by
  unfold complete at h
  split at h
  · cases h
    exact .wait rfl rfl rfl
  · cases hg : s.graph.complete k with
    | error f =>
      rw [hg] at h
      cases h
    | ok q =>
      rw [hg] at h
      cases h
      exact settles_settle { s with graph := q.1, pending := (unpark s.pending q.2).2 } _

/-- An event may call one more barrier and report one more failure. -/
theorem settles_react {p : Scheduler α × Reaction α} {e : Event α} (h : s.react e = .ok p) :
    Settles (s.waiters ++ e.barrier?.toList) (s.failure.or e.failure?) p := by
  have hkeep : s.failure.or none = s.failure := Option.or_none
  cases e with
  | submit t =>
    cases h
    show Settles (s.waiters ++ []) _ _
    rw [List.append_nil]
    unfold submit
    dsimp only
    split <;> exact .wait rfl rfl hkeep.symm
  | complete k =>
    show Settles (s.waiters ++ []) (s.failure.or none) p
    rw [List.append_nil, hkeep]
    exact settles_complete h
  | fail k f =>
    show Settles (s.waiters ++ []) _ p
    rw [List.append_nil]
    exact settles_complete (s := s.note f) h
  | wait b =>
    cases h
    show Settles _ (s.failure.or none) _
    rw [hkeep]
    exact settles_settle { s with waiters := s.waiters ++ [b] } []

end Scheduler

/-! ## What a rank does by itself -/

/-- The barriers on their way to the scheduler. -/
def waits (events : List (Event α)) : List BarrierId := events.filterMap Event.barrier?

theorem waits_append (events more : List (Event α)) :
    waits (events ++ more) = waits events ++ waits more :=
  List.filterMap_append

namespace Node

section

variable [Scalar α] {n n' : Node α} {net net' : Cluster} {t : Task α} {s : Scheduler α}
  {tasks : List (Task α)} {i : Nat}

/-- As a task is started the failure of a refused message is kept, and no barrier is called. -/
theorem Starts.notes (hs : n.Starts net t net' n') (h : n.scheduler = some s)
    (halive : n'.scheduler.isSome) : n'.nextBarrier = n.nextBarrier ∧
      n'.scheduler = some ((n.refusal net t).foldl (fun s f => s.note f.2) s) := by
  have hnil : (∀ h dst tag, t.job ≠ .send h dst tag) → n.refusal net t = [] := by
    intro hne
    unfold refusal
    split
    · rename_i h dst tag hj
      exact absurd hj (hne h dst tag)
    · rfl
  have hpost : ∀ m : Node α, (m.post (.complete t.id)).nextBarrier = m.nextBarrier := fun m => by
    rw [post_eq]
  cases hs with
  | computes op job =>
    rw [hnil (by rw [job]; exact nofun)]
    exact ⟨rfl, h⟩
  | receives b src tag job =>
    rw [hnil (by rw [job]; exact nofun)]
    exact ⟨rfl, h⟩
  | sends b dst tag block net' job opened sent =>
    have hr : n.refusal net t = [] := by
      unfold refusal
      rw [job]
      dsimp only
      rw [opened]
      dsimp only
      rw [sent]
    rw [hr]
    exact ⟨hpost _, (post_scheduler _ _).trans h⟩
  | refused b dst tag block e job opened unsent =>
    have hr : n.refusal net t = [(t.id, .transfer t.name e)] := by
      unfold refusal
      rw [job]
      dsimp only
      rw [opened]
      dsimp only
      rw [unsent]
    rw [hr]
    refine ⟨hpost _, (post_scheduler _ _).trans ?_⟩
    show Option.map _ n.scheduler = _
    rw [h]
    rfl
  | unopened b dst tag f job unopened =>
    rw [stop_scheduler] at halive
    cases halive
  | evicts b e job freed =>
    rw [hnil (by rw [job]; exact nofun)]
    exact ⟨hpost _, (post_scheduler _ _).trans h⟩
  | unfreed b f job unfreed =>
    rw [stop_scheduler] at halive
    cases halive
  | grants job held =>
    rw [hnil (by rw [job]; exact nofun)]
    exact ⟨rfl, h⟩
  | vacant job gone =>
    rw [hnil (by rw [job]; exact nofun)]
    exact ⟨hpost _, (post_scheduler _ _).trans h⟩
  | retires tags job =>
    rw [hnil (by rw [job]; exact nofun)]
    exact ⟨hpost _, (post_scheduler _ _).trans h⟩
  | withdrawn job =>
    rw [hnil (by rw [job]; exact nofun)]
    exact ⟨hpost _, (post_scheduler _ _).trans h⟩

/-- Starting tasks reports no more than ends, and every refusal is kept. -/
theorem startAll_posts (h : n.scheduler = some s)
    (halive : (startAll net n tasks).2.scheduler.isSome) :
    (∃ more, (startAll net n tasks).2.events = n.events ++ more ∧
      ∀ e ∈ more, ∃ k, e = .complete k) ∧
      (startAll net n tasks).2.nextBarrier = n.nextBarrier ∧
      (startAll net n tasks).2.scheduler =
        some ((n.refusals net tasks).foldl (fun s f => s.note f.2) s) := by
  induction tasks generalizing net n s with
  | nil => exact ⟨⟨[], (List.append_nil _).symm, nofun⟩, rfl, h⟩
  | cons t tasks ih =>
    unfold startAll at halive ⊢
    unfold refusals
    dsimp only at halive ⊢
    by_cases hgo : (start net n t).2.scheduler.isSome
    · rw [if_pos hgo] at halive
      rw [if_pos hgo, if_pos hgo]
      have hevents := (starts_of_start net n t).events hgo
      obtain ⟨hnext, hsched⟩ := (starts_of_start net n t).notes h hgo
      obtain ⟨⟨more, hmore, hends⟩, hnext', hsched'⟩ := ih hsched halive
      refine ⟨?_, hnext'.trans hnext, ?_⟩
      · rcases hevents with hevents | hevents
        · exact ⟨more, by rw [hmore, hevents], hends⟩
        · refine ⟨.complete t.id :: more, by rw [hmore, hevents, List.append_assoc]; rfl, ?_⟩
          intro e he
          rcases List.mem_cons.mp he with rfl | he
          · exact ⟨t.id, rfl⟩
          · exact hends e he
      · rw [hsched', List.foldl_append]
    · rw [if_neg hgo] at halive
      exact absurd halive hgo

end

/-! ## Ends that are never reported

A receive that fails frees its copy, and only then is its failure reported.  A poisoned copy cannot be
freed: nothing is reported then, and the task stays in the graph for good. -/

section

variable {b : Scheduler.Record α} {n n' : Node α} {todo tasks : List (Task α)} {t : Task α}
  {s s' : Scheduler α} {k : TaskId} {net net' : Cluster} {a : Happening α}

/-- The end of a task has not been reported, and nothing that could report it is under way. -/
def Silent (n : Node α) (b : Scheduler.Record α) (k : TaskId) : Prop :=
  ∃ t ∈ b.started, t.id = k ∧ t.job.labours = true ∧ n.dues b [] k = 0

theorem Silent.notMem_reports (h : n.Silent b k) : k ∉ reports n.events := by
  obtain ⟨t, -, -, -, hzero⟩ := h
  intro hin
  have hpos := List.count_pos_iff.mpr hin
  unfold dues at hzero
  omega

/-- The end of one task counts once. -/
theorem dues_post_le {e : Event α} {j : TaskId} (he : e.ended? = some j) :
    (n.post e).dues b todo k ≤ n.dues b todo k + [j].count k := by
  have hreports : (reports (n.post e).events).count k ≤ (reports n.events).count k + [j].count k := by
    unfold post
    split
    · show (reports (n.events ++ [e])).count k ≤ _
      have hone : reports [e] = [j] := by
        unfold reports
        rw [List.filterMap_cons_some he, List.filterMap_nil]
      refine Nat.le_of_eq ?_
      rw [reports_append, List.count_append, hone]
    · exact Nat.le_add_right _ _
  unfold dues
  rw [post_work, post_arrivals]
  omega

variable [Scalar α]

/-- A task that is started is due once as before. -/
theorem Starts.dues_le (hs : n.Starts net t net' n') (halive : n'.scheduler.isSome) :
    n'.dues b todo k ≤ n.dues b (t :: todo) k := by
  have hpost : ∀ m : Node α, m.dues b todo k = n.dues b todo k →
      (m.post (.complete t.id)).dues b todo k ≤ n.dues b (t :: todo) k := by
    intro m hm
    have hle : (m.post (.complete t.id)).dues b todo k ≤ m.dues b todo k + [t.id].count k :=
      dues_post_le rfl
    have hcons := count_ids_cons t todo k
    unfold dues at *
    omega
  cases hs with
  | computes op job =>
    unfold dues
    rw [count_ids_cons, List.map_append, List.count_append, List.map_singleton]
    dsimp only
    omega
  | receives h src tag job =>
    unfold dues
    rw [count_ids_cons, List.map_append, List.count_append, List.map_singleton]
    dsimp only
    omega
  | sends h dst tag block net' job opened sent => exact hpost _ rfl
  | refused h dst tag block e job opened unsent => exact hpost _ rfl
  | unopened h dst tag f job unopened =>
    rw [stop_scheduler] at halive
    cases halive
  | evicts h e job freed => exact hpost _ rfl
  | unfreed h f job unfreed =>
    rw [stop_scheduler] at halive
    cases halive
  | grants job held =>
    unfold dues
    rw [count_ids_cons]
    dsimp only
    omega
  | vacant job gone => exact hpost _ rfl
  | retires tags job => exact hpost _ rfl
  | withdrawn job => exact hpost _ rfl

theorem dues_startAll_le (halive : (startAll net n tasks).2.scheduler.isSome) :
    (startAll net n tasks).2.dues b [] k ≤ n.dues b tasks k :=
  startAll_of_alive (P := fun todo m => m.dues b todo k ≤ n.dues b tasks k) (Nat.le_refl _)
    (fun hs hgo hle => Nat.le_trans (hs.dues_le hgo) hle) halive

/-- A computation that runs is due once as before. -/
theorem dues_work_le {i : Nat} {w : Work α} (hw : n.work[i]? = some w) :
    ((({ n with work := n.work.eraseIdx i } : Node α).run w.op).post (.complete w.id)).dues b [] k ≤
      n.dues b [] k := by
  have hm := onlyMemory_run ({ n with work := n.work.eraseIdx i } : Node α) w.op
  have hcount := count_eraseIdx (f := fun v : Work α => v.id) hw k
  refine Nat.le_trans (dues_post_le (j := w.id) rfl) ?_
  unfold dues
  rw [hm.events, hm.work, hm.arrivals, hcount]
  dsimp only
  omega

/-- A receive that ends is due once as before; if nothing is reported, it is due once less. -/
theorem Finishes.dues_le {i : Nat} {c : Arrival} {r : Receipt} (hc : n.arrivals[i]? = some c)
    (hf : Finishes { n with arrivals := n.arrivals.eraseIdx i } c r n') (halive : n.scheduler.isSome) :
    n'.dues b [] k ≤ n.dues b [] k ∧
      (n'.events = n.events → n'.dues b [] k + [c.id].count k = n.dues b [] k) := by
  have hcount := count_eraseIdx (f := fun d : Arrival => d.id) hc k
  have hwork : n'.work = n.work := by rw [hf.eq]
  have harrivals : n'.arrivals = n.arrivals.eraseIdx i := by rw [hf.eq]
  have hreports : (reports n'.events).count k ≤ (reports n.events).count k + [c.id].count k := by
    rcases hf.events halive with hev | hev | ⟨e, hev⟩ <;> rw [hev]
    · exact Nat.le_add_right _ _
    · rw [reports_append, List.count_append]
      exact Nat.le_refl _
    · rw [reports_append, List.count_append]
      exact Nat.le_refl _
  unfold dues
  rw [hwork, harrivals, hcount]
  refine ⟨by omega, fun hev => ?_⟩
  rw [hev]
  omega

/-- Whatever happens, a task whose end is not reported and cannot be reported any more stays so. -/
theorem Silent.undergo (hsilent : n.Silent b k) (hk : Kept b [] n s)
    (h : n.undergo net a = some (net', n')) (hs : n'.scheduler = some s') :
    n'.Silent (Scene.note b ⟨net, n, a, n'⟩) k := by
  obtain ⟨t, ht, rfl, hj, hzero⟩ := hsilent
  have hle : ∀ m : Node α, m.dues b [] t.id ≤ n.dues b [] t.id → m.Silent b t.id := fun m hm =>
    ⟨t, ht, rfl, hj, Nat.le_zero.mp (hzero ▸ hm)⟩
  cases undergoes_of_undergo h with
  | calls call calls edits =>
    rw [Scene.note_of_isCall call]
    exact hle n' (Nat.le_of_eq (hk.dues_of_calls calls ht hj))
  | takes takes =>
    obtain ⟨e, events, p, queue, react, rfl, rfl⟩ := takes.reacts_of_alive hk.scheduler (hs ▸ rfl)
    have honce : (b.started.map (·.id) ++ p.2.started.map (·.id)).Nodup := by
      rw [← List.map_append]
      exact (hk.of_react queue react).fits.once
    rw [Scene.note_of_react hk.scheduler queue react]
    refine ⟨t, List.mem_append_left _ ht, rfl, hj, Nat.le_zero.mp ?_⟩
    calc (startAll net _ p.2.started).2.dues (b.add e p.2) [] t.id
        ≤ Node.dues { n with events, scheduler := some p.1 } (b.add e p.2) p.2.started t.id :=
          dues_startAll_le (Option.isSome_iff_exists.mpr ⟨s', hs⟩)
      _ = n.dues b [] t.id := Kept.dues_of_started queue honce ht
      _ = 0 := hzero
  | works i w queued => exact hle _ (dues_work_le queued)
  | arrives i c r pending receipt finishes =>
    exact hle n' (finishes.dues_le pending (hk.scheduler ▸ rfl)).1

/-- A receive that is over without a report is never reported. -/
theorem silent_of_finishes {i : Nat} {c : Arrival} {r : Receipt} (hk : Kept b [] n s)
    (hc : n.arrivals[i]? = some c)
    (hf : Finishes { n with arrivals := n.arrivals.eraseIdx i } c r n')
    (hev : n'.events = n.events) : n'.Silent b c.id := by
  obtain ⟨t, ht, hid, -, src, tag, hjob⟩ := hk.arrivals c (List.mem_of_getElem? hc)
  have hj : t.job.labours = true := by rw [hjob]; rfl
  refine ⟨t, ht, hid, hj, ?_⟩
  have hsum := (hf.dues_le (b := b) (k := c.id) hc (hk.scheduler ▸ rfl)).2 hev
  have hone : [c.id].count c.id = 1 := List.count_singleton_self
  have hdues := hk.dues t ht hj
  rw [hid] at hdues
  omega

/-- A receive that fails has something to fail with. -/
theorem Fails.failure? {c : Arrival} {r : Receipt} {m : Node α} {f : TaskError}
    (hf : n.Fails c r m f) : n.failure? c r = some f := by
  cases hf with
  | refused e => rfl
  | payload payload block opened misfit =>
    unfold Node.failure?
    dsimp only
    rw [opened]
    exact if_neg misfit

end

/-- What a chronicle says about a rank with a given record, given tasks whose end is never reported,
barriers that wait and a failure that is kept. -/
structure Told (ms : List Moment) (b : Scheduler.Record α) (n : Node α) (silent : TaskId → Prop)
    (waiters : List BarrierId) (failure : Option TaskError) : Prop where
  sounds : Sounds ms
  submitted : ∀ k, .submitted k ∈ ms ↔ k ∈ b.submitted.map (·.id)
  started : ∀ k, .started k ∈ ms ↔ k ∈ b.started.map (·.id)
  ended : ∀ k, .ended k ∈ ms ↔ k ∈ b.ended
  fails : ∀ k e, .fail k e ∈ n.events → .missed k e ∈ ms
  /-- A failure is kept, or it is on its way to the scheduler, or the task never ends. -/
  missed : ∀ k e, .missed k e ∈ ms → .noted k e ∈ ms ∨ .fail k e ∈ n.events ∨ silent k
  once : (calledIn ms ++ waits n.events).Nodup
  below : ∀ c ∈ calledIn ms ++ waits n.events, c < n.nextBarrier
  answered : calledIn ms = answeredIn ms ++ waiters
  failure : failure = (unreported ms).head?

namespace Told

variable {ms : List Moment} {b : Scheduler.Record α} {n n' : Node α} {ws : List BarrierId}
  {o : Option TaskError} {k : TaskId} {e : TaskError} {c : BarrierId} {events more : List (Event α)}
  {S S' : TaskId → Prop}

/-- More tasks may turn out never to be reported. -/
theorem mono (ht : Told ms b n S ws o) (h : ∀ k, S k → S' k) : Told ms b n S' ws o :=
  ⟨ht.sounds, ht.submitted, ht.started, ht.ended, ht.fails,
    fun k e hin => (ht.missed k e hin).imp_right (Or.imp_right (h k)), ht.once, ht.below, ht.answered,
    ht.failure⟩

/-! ### Moment by moment -/

/-- One more moment, if it is not that a barrier is called or that a transfer fails. -/
theorem concat {m : Moment} {b' : Scheduler.Record α} {ws' : List BarrierId} {o' : Option TaskError}
    (ht : Told ms b n S ws o) (hm : m.Sound ms)
    (hsubmitted : ∀ k, m = .submitted k ∨ k ∈ b.submitted.map (·.id) ↔ k ∈ b'.submitted.map (·.id))
    (hstarted : ∀ k, m = .started k ∨ k ∈ b.started.map (·.id) ↔ k ∈ b'.started.map (·.id))
    (hended : ∀ k, m = .ended k ∨ k ∈ b.ended ↔ k ∈ b'.ended)
    (hmissed : ∀ k e, m ≠ .missed k e) (hcalled : ∀ c, m ≠ .called c)
    (hanswered : answeredIn [m] ++ ws' = ws) (hfailure : o' = (unreported (ms ++ [m])).head?) :
    Told (ms ++ [m]) b' n S ws' o' := by
  have hmem : ∀ m', m' ∈ ms ++ [m] ↔ m = m' ∨ m' ∈ ms := by
    intro m'
    rw [List.mem_append, List.mem_singleton, or_comm, eq_comm]
  have hsame : calledIn (ms ++ [m]) = calledIn ms := by
    rw [calledIn_append]
    cases m with
    | called c => exact absurd rfl (hcalled c)
    | _ => exact List.append_nil _
  constructor
  case sounds => exact ht.sounds.concat hm
  case submitted =>
    intro k
    rw [hmem, ht.submitted, hsubmitted]
  case started =>
    intro k
    rw [hmem, ht.started, hstarted]
  case ended =>
    intro k
    rw [hmem, ht.ended, hended]
  case fails =>
    intro k e h
    exact List.mem_append_left _ (ht.fails k e h)
  case missed =>
    intro k e h
    refine (ht.missed k e (((hmem _).mp h).resolve_left (hmissed k e))).imp_left fun h => ?_
    exact List.mem_append_left _ h
  case once =>
    rw [hsame]
    exact ht.once
  case below =>
    rw [hsame]
    exact ht.below
  case answered =>
    rw [hsame, answeredIn_append, List.append_assoc, hanswered]
    exact ht.answered
  case failure => exact hfailure

/-- The failures that are kept change only when one is kept or a barrier is answered. -/
theorem unreported_concat {m : Moment} (hn : ∀ k e, m ≠ .noted k e) (ha : ∀ as, m ≠ .answered as) :
    unreported (ms ++ [m]) = unreported ms := by
  unfold unreported
  rw [List.foldl_append]
  cases m with
  | noted k e => exact absurd rfl (hn k e)
  | answered as => exact absurd rfl (ha as)
  | _ => rfl

theorem submit (ht : Told ms b n S ws o) {t : Task α} (hnew : t.id ∉ b.submitted.map (·.id)) :
    Told (ms ++ [.submitted t.id]) { b with submitted := b.submitted ++ [t] } n S ws o := by
  refine ht.concat (fun h => hnew ((ht.submitted _).mp h)) ?_ ?_ ?_ nofun nofun rfl ?_
  · intro k
    rw [List.map_append, List.mem_append, or_comm]
    simp [eq_comm]
  · intro k
    exact or_iff_right nofun
  · intro k
    exact or_iff_right nofun
  · rw [unreported_concat]
    · exact ht.failure
    · exact nofun
    · exact nofun

theorem start (ht : Told ms b n S ws o) {t : Task α} (hsub : t.id ∈ b.submitted.map (·.id))
    (hnew : t.id ∉ b.started.map (·.id)) :
    Told (ms ++ [.started t.id]) { b with started := b.started ++ [t] } n S ws o := by
  refine ht.concat ⟨(ht.submitted _).mpr hsub, fun h => hnew ((ht.started _).mp h)⟩ ?_ ?_ ?_ nofun
    nofun rfl ?_
  · intro k
    exact or_iff_right nofun
  · intro k
    rw [List.map_append, List.mem_append, or_comm]
    simp [eq_comm]
  · intro k
    exact or_iff_right nofun
  · rw [unreported_concat]
    · exact ht.failure
    · exact nofun
    · exact nofun

/-- Tasks are started one after the other. -/
theorem starts (ht : Told ms b n S ws o) {ts : List (Task α)}
    (hsub : ∀ t ∈ ts, t.id ∈ b.submitted.map (·.id))
    (hn : ((b.started ++ ts).map (·.id)).Nodup) :
    Told (ms ++ ts.map fun t => .started t.id) { b with started := b.started ++ ts } n S ws o := by
  induction ts generalizing ms b with
  | nil =>
    rw [List.map_nil, List.append_nil, List.append_nil]
    exact ht
  | cons t ts ih =>
    have hnew : t.id ∉ b.started.map (·.id) := by
      intro h
      rw [List.map_append] at hn
      exact List.disjoint_of_nodup_append hn h (List.mem_map_of_mem List.mem_cons_self)
    rw [List.append_cons b.started] at hn ⊢
    rw [List.map_cons, List.append_cons ms]
    refine ih (ht.start (hsub t List.mem_cons_self) hnew) ?_ hn
    intro u hu
    exact hsub u (List.mem_cons_of_mem t hu)

/-- A task leaves the graph. -/
theorem leave (ht : Told ms b n S ws o) (hstarted : k ∈ b.started.map (·.id)) (hnew : k ∉ b.ended)
    (hnoted : ∀ e, .missed k e ∈ ms → .noted k e ∈ ms) :
    Told (ms ++ [.ended k]) { b with ended := b.ended ++ [k] } n S ws o := by
  refine ht.concat ⟨(ht.started k).mpr hstarted, fun h => hnew ((ht.ended k).mp h), hnoted⟩ ?_ ?_ ?_
    nofun nofun rfl ?_
  · intro j
    exact or_iff_right nofun
  · intro j
    exact or_iff_right nofun
  · intro j
    rw [List.mem_append, or_comm]
    simp [eq_comm]
  · rw [unreported_concat]
    · exact ht.failure
    · exact nofun
    · exact nofun

theorem unreported_noted : (unreported (ms ++ [.noted k e])).head? =
    (unreported ms).head?.or (some e) := by
  have hfold : unreported (ms ++ [.noted k e]) = unreported ms ++ [e] := by
    unfold unreported
    rw [List.foldl_append]
    rfl
  rw [hfold, List.head?_append]
  rfl

/-- A failure is kept. -/
theorem note (ht : Told ms b n S ws o) (hmissed : .missed k e ∈ ms) (hnew : k ∉ b.ended) :
    Told (ms ++ [.noted k e]) b n S ws (o.or (some e)) := by
  refine ht.concat ⟨hmissed, fun h => hnew ((ht.ended k).mp h)⟩ ?_ ?_ ?_ nofun nofun rfl ?_
  · intro j
    exact or_iff_right nofun
  · intro j
    exact or_iff_right nofun
  · intro j
    exact or_iff_right nofun
  · rw [unreported_noted, ht.failure]

/-- All barriers that wait are answered. -/
theorem answer (ht : Told ms b n S (c :: ws) o)
    (hended : ∀ k, k ∈ b.submitted.map (·.id) → k ∈ b.ended) :
    Told (ms ++ [.answered (Scheduler.answers o (c :: ws))]) b n S [] none := by
  refine ht.concat ⟨?_, ?_, c, ws, ?_⟩ ?_ ?_ ?_ nofun nofun ?_ ?_
  · intro k hk
    exact (ht.ended k).mpr (hended k ((ht.submitted k).mp hk))
  · rw [Scheduler.map_fst_answers]
    exact ht.answered.symm
  · rw [ht.failure]
    rfl
  · intro j
    exact or_iff_right nofun
  · intro j
    exact or_iff_right nofun
  · intro j
    exact or_iff_right nofun
  · show ((Scheduler.answers o (c :: ws)).map (·.1) ++ []) ++ [] = _
    rw [List.append_nil, List.append_nil, Scheduler.map_fst_answers]
  · have hfold : unreported (ms ++ [.answered (Scheduler.answers o (c :: ws))]) =
        if (Scheduler.answers o (c :: ws)).any (·.2.isSome) then [] else unreported ms := by
      unfold unreported
      rw [List.foldl_append]
      rfl
    rw [hfold]
    cases o with
    | none =>
      split
      · rfl
      · exact ht.failure
    | some e => rfl

/-- A barrier is called: the scheduler takes the event. -/
theorem call (ht : Told ms b n S ws o) (he : n.events = .wait c :: events) :
    Told (ms ++ [.called c]) b { n with events } S (ws ++ [c]) o := by
  have hwaits : waits n.events = c :: waits events := by rw [he]; rfl
  have hcalled : calledIn (ms ++ [.called c]) ++ waits events = calledIn ms ++ waits n.events := by
    rw [calledIn_append, hwaits, List.append_assoc]
    rfl
  have hmem : ∀ m, m ∈ ms ++ [Moment.called c] ↔ Moment.called c = m ∨ m ∈ ms := by
    intro m
    rw [List.mem_append, List.mem_singleton, or_comm, eq_comm]
  constructor
  case sounds =>
    refine ht.sounds.concat ?_
    intro h
    have honce := ht.once
    rw [hwaits] at honce
    exact List.disjoint_of_nodup_append honce (mem_calledIn.mpr h) List.mem_cons_self
  case submitted =>
    intro k
    rw [hmem, or_iff_right nofun]
    exact ht.submitted k
  case started =>
    intro k
    rw [hmem, or_iff_right nofun]
    exact ht.started k
  case ended =>
    intro k
    rw [hmem, or_iff_right nofun]
    exact ht.ended k
  case fails =>
    intro k e h
    exact List.mem_append_left _ (ht.fails k e (he ▸ List.mem_cons_of_mem _ h))
  case missed =>
    intro k e h
    rw [hmem, or_iff_right nofun] at h
    refine (ht.missed k e h).imp (List.mem_append_left _) (Or.imp_left fun h => ?_)
    rw [he] at h
    exact (List.mem_cons.mp h).resolve_left nofun
  case once =>
    show (calledIn (ms ++ [.called c]) ++ waits events).Nodup
    rw [hcalled]
    exact ht.once
  case below =>
    show ∀ d ∈ calledIn (ms ++ [.called c]) ++ waits events, d < n.nextBarrier
    rw [hcalled]
    exact ht.below
  case answered =>
    rw [calledIn_append, answeredIn_append, ht.answered]
    show (answeredIn ms ++ ws) ++ [c] = (answeredIn ms ++ []) ++ (ws ++ [c])
    rw [List.append_nil, List.append_assoc]
  case failure =>
    rw [unreported_concat]
    · exact ht.failure
    · exact nofun
    · exact nofun

/-- An event other than a call of a barrier is taken out; a failure that it reports has been
kept. -/
theorem drop {e : Event α} (ht : Told ms b n S ws o) (he : n.events = e :: events)
    (hw : e.barrier? = none) (hnoted : ∀ k f, e = .fail k f → .noted k f ∈ ms) :
    Told ms b { n with events } S ws o := by
  have hwaits : waits n.events = waits events := by
    rw [he]
    unfold waits
    exact List.filterMap_cons_none hw
  refine ⟨ht.sounds, ht.submitted, ht.started, ht.ended, ?_, ?_, ?_, ?_, ht.answered, ht.failure⟩
  · intro k f h
    exact ht.fails k f (he ▸ List.mem_cons_of_mem _ h)
  · intro k f h
    rcases ht.missed k f h with h | h | h
    · exact Or.inl h
    · rw [he] at h
      rcases List.mem_cons.mp h with h | h
      · exact Or.inl (hnoted k f h.symm)
      · exact Or.inr (Or.inl h)
    · exact Or.inr (Or.inr h)
  · show (calledIn ms ++ waits events).Nodup
    rw [← hwaits]
    exact ht.once
  · show ∀ d ∈ calledIn ms ++ waits events, d < n.nextBarrier
    rw [← hwaits]
    exact ht.below

/-- Events other than failures and calls of barriers are queued. -/
theorem queue (ht : Told ms b n S ws o) (hev : n'.events = n.events ++ more)
    (hnext : n'.nextBarrier = n.nextBarrier) (hfail : ∀ k f, .fail k f ∉ more)
    (hwait : waits more = []) : Told ms b n' S ws o := by
  have hwaits : waits n'.events = waits n.events := by
    rw [hev, waits_append, hwait, List.append_nil]
  refine ⟨ht.sounds, ht.submitted, ht.started, ht.ended, ?_, ?_, ?_, ?_, ht.answered, ht.failure⟩
  · intro k f h
    rw [hev] at h
    exact ht.fails k f ((List.mem_append.mp h).resolve_right (hfail k f))
  · intro k f h
    rw [hev]
    exact (ht.missed k f h).imp_right (Or.imp_left (List.mem_append_left _))
  · rw [hwaits]
    exact ht.once
  · rw [hwaits, hnext]
    exact ht.below

/-- A message is refused, and the failure is kept at once. -/
theorem refuse (ht : Told ms b n S ws o) (hstarted : k ∈ b.started.map (·.id)) (hnew : k ∉ b.ended) :
    Told (ms ++ [.missed k e, .noted k e]) b n S ws (o.or (some e)) := by
  have heq : ms ++ [.missed k e, .noted k e] = (ms ++ [.missed k e]) ++ [.noted k e] := by
    rw [List.append_assoc]
    rfl
  have hmem : ∀ m, m ∈ (ms ++ [Moment.missed k e]) ++ [.noted k e] ↔
      m = .noted k e ∨ m = .missed k e ∨ m ∈ ms := by
    intro m
    rw [List.mem_append, List.mem_append, List.mem_singleton, List.mem_singleton, or_comm,
      or_comm (a := m ∈ ms)]
  have hended : ∀ m, m ∉ b.ended → .ended m ∉ ms := fun m hm h => hm ((ht.ended m).mp h)
  have hcalled : calledIn ((ms ++ [Moment.missed k e]) ++ [.noted k e]) = calledIn ms := by
    rw [calledIn_append, calledIn_append]
    show (calledIn ms ++ []) ++ [] = _
    rw [List.append_nil, List.append_nil]
  have hmissed : (Moment.missed k e).Sound ms := ⟨(ht.started k).mpr hstarted, hended k hnew⟩
  rw [heq]
  constructor
  case sounds =>
    refine (ht.sounds.concat hmissed).concat ⟨?_, ?_⟩
    · exact List.mem_append_right _ List.mem_cons_self
    · intro h
      rcases List.mem_append.mp h with h | h
      · exact hended k hnew h
      · cases List.mem_singleton.mp h
  case submitted =>
    intro j
    rw [hmem, or_iff_right nofun, or_iff_right nofun]
    exact ht.submitted j
  case started =>
    intro j
    rw [hmem, or_iff_right nofun, or_iff_right nofun]
    exact ht.started j
  case ended =>
    intro j
    rw [hmem, or_iff_right nofun, or_iff_right nofun]
    exact ht.ended j
  case fails =>
    intro j f h
    exact (hmem _).mpr (Or.inr (Or.inr (ht.fails j f h)))
  case missed =>
    intro j f h
    rw [hmem, or_iff_right nofun] at h
    rcases h with h | h
    · cases h
      exact Or.inl ((hmem _).mpr (Or.inl rfl))
    · exact (ht.missed j f h).imp_left fun h => (hmem _).mpr (Or.inr (Or.inr h))
  case once =>
    rw [hcalled]
    exact ht.once
  case below =>
    rw [hcalled]
    exact ht.below
  case answered =>
    rw [hcalled, answeredIn_append, answeredIn_append]
    show _ = ((answeredIn ms ++ []) ++ []) ++ ws
    rw [List.append_nil, List.append_nil]
    exact ht.answered
  case failure =>
    rw [unreported_noted, unreported_concat, ht.failure]
    · exact nofun
    · exact nofun

theorem refusals (ht : Told ms b n S ws o) {fs : List (TaskId × TaskError)}
    (hstarted : ∀ f ∈ fs, f.1 ∈ b.started.map (·.id)) (hnew : ∀ f ∈ fs, f.1 ∉ b.ended) :
    Told (ms ++ fs.flatMap fun f => [.missed f.1 f.2, .noted f.1 f.2]) b n S ws
      (fs.foldl (fun o f => o.or (some f.2)) o) := by
  induction fs generalizing ms o with
  | nil =>
    rw [List.flatMap_nil, List.append_nil]
    exact ht
  | cons f fs ih =>
    rw [List.flatMap_cons, ← List.append_assoc]
    refine ih (ht.refuse (hstarted f List.mem_cons_self) (hnew f List.mem_cons_self)) ?_ ?_
    · intro g hg
      exact hstarted g (List.mem_cons_of_mem f hg)
    · intro g hg
      exact hnew g (List.mem_cons_of_mem f hg)

/-- A receive has failed: its failure is reported, or its end never is. -/
theorem miss (ht : Told ms b n S ws o) (hstarted : k ∈ b.started.map (·.id)) (hnew : k ∉ b.ended)
    (hev : n'.events = n.events ++ more) (hmore : more = [.fail k e] ∨ more = [] ∧ S k)
    (hnext : n'.nextBarrier = n.nextBarrier) : Told (ms ++ [.missed k e]) b n' S ws o := by
  have hmem : ∀ m, m ∈ ms ++ [Moment.missed k e] ↔ m = .missed k e ∨ m ∈ ms := by
    intro m
    rw [List.mem_append, List.mem_singleton, or_comm]
  have hcalled : calledIn (ms ++ [.missed k e]) = calledIn ms := by
    rw [calledIn_append]
    exact List.append_nil _
  have hwaits : waits n'.events = waits n.events := by
    rw [hev, waits_append]
    rcases hmore with rfl | ⟨rfl, -⟩ <;> exact List.append_nil _
  constructor
  case sounds =>
    exact ht.sounds.concat ⟨(ht.started k).mpr hstarted, fun h => hnew ((ht.ended k).mp h)⟩
  case submitted =>
    intro j
    rw [hmem, or_iff_right nofun]
    exact ht.submitted j
  case started =>
    intro j
    rw [hmem, or_iff_right nofun]
    exact ht.started j
  case ended =>
    intro j
    rw [hmem, or_iff_right nofun]
    exact ht.ended j
  case fails =>
    intro j f h
    rw [hev] at h
    rcases List.mem_append.mp h with h | h
    · exact (hmem _).mpr (Or.inr (ht.fails j f h))
    · rcases hmore with rfl | ⟨rfl, -⟩
      · cases List.mem_singleton.mp h
        exact (hmem _).mpr (Or.inl rfl)
      · cases h
  case missed =>
    intro j f h
    rw [hev]
    rcases (hmem _).mp h with h | h
    · cases h
      rcases hmore with rfl | ⟨rfl, hsilent⟩
      · exact Or.inr (Or.inl (List.mem_append_right _ List.mem_cons_self))
      · exact Or.inr (Or.inr hsilent)
    · exact (ht.missed j f h).imp (List.mem_append_left _) (Or.imp_left (List.mem_append_left _))
  case once =>
    rw [hcalled, hwaits]
    exact ht.once
  case below =>
    rw [hcalled, hwaits, hnext]
    exact ht.below
  case answered =>
    rw [hcalled, answeredIn_append]
    show _ = (answeredIn ms ++ []) ++ ws
    rw [List.append_nil]
    exact ht.answered
  case failure =>
    rw [unreported_concat]
    · exact ht.failure
    · exact nofun
    · exact nofun

/-- A task leaves the graph exactly when the scheduler is told of its end for the first time. -/
theorem left {b' : Scheduler.Record α} {s s' : Scheduler α} (ht : Told ms b n S ws o) (hf : b.Fits s)
    (hf' : b'.Fits s') (hsub : b'.submitted = b.submitted)
    (hend : b'.ended = if k ∈ b.started.map (·.id) then b.ended ++ [k] else b.ended)
    (hnoted : ∀ e, .missed k e ∈ ms → .noted k e ∈ ms) :
    Told (ms ++ s.left s' k) { b with ended := b'.ended } n S ws o := by
  have hold := hf.unfinished k
  have hnew := hf'.unfinished k
  rw [hsub] at hnew
  unfold Scheduler.left
  by_cases hgone : k ∈ b.started.map (·.id) ∧ k ∉ b.ended
  · have hin : k ∈ b.submitted.map (·.id) := ((hf.waiting k).mp hgone.1).1
    rw [if_pos hgone.1] at hend
    have hbefore : s.graph.contains k = true := hold.mpr ⟨hin, hgone.2⟩
    have hafter : ¬s'.graph.contains k = true := fun h =>
      (hnew.mp h).2 (hend ▸ List.mem_append_right _ List.mem_cons_self)
    rw [hbefore, Bool.eq_false_iff.mpr hafter, hend]
    exact ht.leave hgone.1 hgone.2 hnoted
  · have hsame : ∀ j, j ∈ b'.ended ↔ j ∈ b.ended := by
      intro j
      rw [hend]
      split
      · rename_i hk
        rw [List.mem_append, List.mem_singleton]
        refine or_iff_left_of_imp ?_
        rintro rfl
        exact Decidable.byContradiction fun h => hgone ⟨hk, h⟩
      · exact Iff.rfl
    have hstays : (s.graph.contains k && !s'.graph.contains k) = false := by
      have hiff : s.graph.contains k = true ↔ s'.graph.contains k = true := by
        rw [hold, hnew, hsame]
      rw [Bool.eq_iff_iff.mpr hiff]
      exact Bool.and_not_self _
    rw [hstays]
    show Told (ms ++ []) _ n S ws o
    rw [List.append_nil]
    refine ⟨ht.sounds, ht.submitted, ht.started, ?_, ht.fails, ht.missed, ht.once, ht.below,
      ht.answered,
      ht.failure⟩
    intro j
    rw [ht.ended]
    exact (hsame j).symm

end Told

/-! ### Events -/

section

variable {ms : List Moment} {b : Scheduler.Record α} {n n' : Node α} {s : Scheduler α} {k : TaskId}
  {e : Event α} {f : TaskError} {events : List (Event α)}

/-- A receive that reports its failure has been started, and nothing else of its end is reported. -/
theorem Kept.fails_once (hk : Kept b [] n s) (hf : .fail k f ∈ n.events) :
    k ∈ b.started.map (·.id) ∧ b.ended.count k + (reports n.events).count k ≤ 1 := by
  obtain ⟨t, ht, rfl, h, src, tag, hjob⟩ := hk.fails k f hf
  refine ⟨List.mem_map_of_mem ht, ?_⟩
  have hdues := hk.dues t ht (by rw [hjob]; rfl)
  unfold Node.dues at hdues
  omega

theorem count_reports_pos (hf : .fail k f ∈ events) : 0 < (reports (α := α) events).count k :=
  List.count_pos_iff.mpr (List.mem_filterMap.mpr ⟨_, hf, rfl⟩)

theorem Kept.not_ended_of_fail (hk : Kept b [] n s) (hf : .fail k f ∈ n.events) : k ∉ b.ended := by
  intro h
  have hone := (hk.fails_once hf).2
  have hpos := count_reports_pos hf
  have hended := List.count_pos_iff.mpr h
  omega

/-- The scheduler takes an event. -/
theorem Told.take {p : Scheduler α × Reaction α} (ht : Told ms b n (n.Silent b) s.waiters s.failure)
    (hk : Kept b [] n s) (he : n.events = e :: events) (hf : (b.add e p.2).Fits p.1) :
    Told (ms ++ s.told p.1 e) { b.add e p.2 with started := b.started } { n with events } (n.Silent b)
      (s.waiters ++ e.barrier?.toList) (s.failure.or e.failure?) := by
  -- a failure of the task that has ended is kept, or it is what the event reports
  have hmissed : ∀ k, e.ended? = some k → ∀ g, .missed k g ∈ ms → .noted k g ∈ ms ∨ e = .fail k g := by
    intro k hend g hin
    have hreports : reports n.events = k :: reports events := by
      rw [he]
      exact List.filterMap_cons_some hend
    refine (ht.missed k g hin).imp_right fun h => ?_
    have h : .fail k g ∈ n.events := h.resolve_right fun hsilent =>
      hsilent.notMem_reports (hreports ▸ List.mem_cons_self)
    have hone := (hk.fails_once h).2
    rw [he] at h
    refine ((List.mem_cons.mp h).resolve_right fun hrest => ?_).symm
    have hpos := count_reports_pos hrest
    rw [hreports, List.count_cons_self] at hone
    omega
  cases e with
  | submit t =>
    show Told _ _ _ _ (s.waiters ++ []) (s.failure.or none)
    rw [List.append_nil, Option.or_none]
    exact (ht.submit (hk.admits he)).drop he rfl nofun
  | wait c =>
    show Told _ _ _ _ _ (s.failure.or none)
    rw [Option.or_none]
    exact ht.call he
  | complete k =>
    show Told _ _ _ _ (s.waiters ++ []) (s.failure.or none)
    rw [List.append_nil, Option.or_none]
    refine (ht.left hk.fits hf rfl rfl ?_).drop he rfl nofun
    intro g hg
    exact (hmissed k rfl g hg).resolve_right nofun
  | fail k f =>
    have hin : .fail k f ∈ n.events := he ▸ List.mem_cons_self
    show Told (ms ++ .noted k f :: s.left p.1 k) _ _ _ (s.waiters ++ []) _
    rw [List.append_nil, List.append_cons]
    refine ((ht.note (ht.fails k f hin) (hk.not_ended_of_fail hin)).left hk.fits hf rfl rfl ?_).drop he
      rfl ?_
    · intro g hg
      have hg := (List.mem_append.mp hg).resolve_right fun h => nomatch List.mem_singleton.mp h
      rcases hmissed k rfl g hg with h | h
      · exact List.mem_append_left _ h
      · cases h
        exact List.mem_append_right _ List.mem_cons_self
    · intro j g hjg
      cases hjg
      exact List.mem_append_left _ (List.mem_append_right _ List.mem_cons_self)

/-- The program calls into the runtime. -/
theorem Told.calls {ws : List BarrierId} {o : Option TaskError} {S : TaskId → Prop}
    (ht : Told ms b n S ws o) (hs : n.scheduler = some s) (hc : n.Calls n') :
    Told ms b n' S ws o := by
  obtain ⟨new, hev, hb⟩ := hc.books
  cases hb with
  | closed dead =>
    rw [hs] at dead
    cases dead
  | nothing nextTask nextBarrier accessors => exact ht.queue hev nextBarrier nofun rfl
  | task t id may nextTask nextBarrier accessors =>
    refine ht.queue hev nextBarrier ?_ rfl
    intro k f h
    cases List.mem_singleton.mp h
  | release k held nextTask nextBarrier accessors =>
    refine ht.queue hev nextBarrier ?_ rfl
    intro k f h
    cases List.mem_singleton.mp h
  | barrier nextTask nextBarrier accessors =>
    have hwaits : waits n'.events = waits n.events ++ [n.nextBarrier] := by
      rw [hev, waits_append]
      rfl
    refine ⟨ht.sounds, ht.submitted, ht.started, ht.ended, ?_, ?_, ?_, ?_, ht.answered, ht.failure⟩
    · intro k f h
      rw [hev] at h
      exact ht.fails k f ((List.mem_append.mp h).resolve_right fun h => nomatch List.mem_singleton.mp h)
    · intro k f h
      rw [hev]
      exact (ht.missed k f h).imp_right (Or.imp_left (List.mem_append_left _))
    · rw [hwaits, ← List.append_assoc]
      refine ht.once.append (List.nodup_singleton _) (List.disjoint_singleton.mpr fun h => ?_)
      exact Nat.lt_irrefl _ (ht.below _ h)
    · intro c hc
      rw [hwaits, ← List.append_assoc] at hc
      rw [nextBarrier]
      rcases List.mem_append.mp hc with hc | hc
      · exact Nat.lt_succ_of_lt (ht.below c hc)
      · exact List.mem_singleton.mp hc ▸ Nat.lt_succ_self _

theorem foldl_note (fs : List (TaskId × TaskError)) (s : Scheduler α) :
    (fs.foldl (fun s f => s.note f.2) s).waiters = s.waiters ∧
      (fs.foldl (fun s f => s.note f.2) s).failure =
        fs.foldl (fun o f => o.or (some f.2)) s.failure := by
  induction fs generalizing s with
  | nil => exact ⟨rfl, rfl⟩
  | cons f fs ih => exact ih (s.note f.2)

end

/-! ### Courses -/

section

variable [Scalar α] {ms : List Moment} {b : Scheduler.Record α} {n n' n₀ : Node α}
  {s s' : Scheduler α} {net net' : Cluster} {a : Happening α} {scenes : List (Scene α)}

theorem mem_of_refusals {tasks : List (Task α)} {f : TaskId × TaskError}
    (h : f ∈ n.refusals net tasks) : f.1 ∈ tasks.map (·.id) := by
  induction tasks generalizing net n with
  | nil => cases h
  | cons t tasks ih =>
    unfold refusals at h
    rcases List.mem_append.mp h with h | h
    · unfold refusal at h
      repeat' split at h
      case _ => cases h
      case _ =>
        obtain rfl := List.mem_singleton.mp h
        exact List.mem_cons_self
      case _ => cases h
      case _ => cases h
    · split at h
      · exact List.mem_cons_of_mem _ (ih h)
      · cases h

omit [Scalar α] in
/-- Barriers are answered where the graph has become empty. -/
theorem Told.settle {e : Event α} {p : Scheduler α × Reaction α} {fs : List (TaskId × TaskError)}
    {S : TaskId → Prop} (ht : Told ms b n S (s.waiters ++ e.barrier?.toList)
      (fs.foldl (fun o f => o.or (some f.2)) (s.failure.or e.failure?)))
    (hfits : b.Fits p.1) (hok : s.react e = .ok p)
    (hfs : ∀ f ∈ fs, ∃ k ∈ b.submitted.map (·.id), k ∉ b.ended) :
    Told (ms ++ if p.2.passed.isEmpty then [] else [.answered p.2.passed]) b n S p.1.waiters
      (fs.foldl (fun o f => o.or (some f.2)) p.1.failure) := by
  cases Scheduler.settles_react hok with
  | wait passed waiters failure =>
    rw [passed, waiters, failure]
    show Told (_ ++ []) _ _ _ _ _
    rw [List.append_nil]
    exact ht
  | answer c cs called passed empty waiters failure =>
    have hempty : ∀ k, ¬p.1.graph.contains k = true := by
      intro k hin
      rw [TaskGraph.contains, Table.has_iff, TaskGraph.nodes_of_isEmpty empty] at hin
      cases hin
    have hended : ∀ k, k ∈ b.submitted.map (·.id) → k ∈ b.ended := by
      intro k hin
      exact Decidable.byContradiction fun h => hempty k ((hfits.unfinished k).mpr ⟨hin, h⟩)
    -- nothing has been started, so that nothing has been refused
    have hnone : fs = [] := by
      refine List.eq_nil_iff_forall_not_mem.mpr fun f hf => ?_
      obtain ⟨k, hin, hlast⟩ := hfs f hf
      exact hlast (hended k hin)
    subst hnone
    rw [called] at passed ht
    rw [passed, waiters, failure]
    exact ht.answer hended

theorem moments_of_react {e : Event α} {events : List (Event α)} {p : Scheduler α × Reaction α}
    (hs : n.scheduler = some s) (he : n.events = e :: events) (hok : s.react e = .ok p) :
    (Scene.mk net n .take n').moments = s.told p.1 e
      ++ p.2.started.map (fun t => .started t.id)
      ++ (Node.refusals net { n with events, scheduler := some p.1 } p.2.started).flatMap
        (fun f => [.missed f.1 f.2, .noted f.1 f.2])
      ++ if p.2.passed.isEmpty then [] else [.answered p.2.passed] := by
  unfold Scene.moments
  dsimp only
  rw [hs, he]
  dsimp only
  rw [hok]

/-- The scheduler takes an event, starts what is to be started, and answers barriers. -/
theorem Told.reacts {e : Event α} {events : List (Event α)} {p : Scheduler α × Reaction α}
    (ht : Told ms b n (n.Silent b) s.waiters s.failure) (hk : Kept b [] n s)
    (he : n.events = e :: events) (hok : s.react e = .ok p)
    (hs : (startAll net { n with events, scheduler := some p.1 } p.2.started).2.scheduler = some s') :
    Told (ms ++ (Scene.mk net n .take n').moments) (b.add e p.2)
      ((startAll net { n with events, scheduler := some p.1 } p.2.started).2.pass p.2.passed)
      (n.Silent b) s'.waiters s'.failure := by
  have hk' := hk.of_react he hok
  obtain ⟨⟨more, hev, hmore⟩, hnext, hsched⟩ :=
    startAll_posts rfl (Option.isSome_iff_exists.mpr ⟨s', hs⟩)
  have hmoments : (Scene.mk net n .take n').moments = _ := moments_of_react hk.scheduler he hok
  generalize hfs : Node.refusals net { n with events, scheduler := some p.1 } p.2.started = fs
    at hmoments hsched
  have hids : ∀ f ∈ fs, ∃ t ∈ p.2.started, t.id = f.1 := by
    intro f hf
    rw [← hfs] at hf
    exact List.mem_map.mp (mem_of_refusals hf)
  have hfirst : ∀ f ∈ fs, f.1 ∈ (b.add e p.2).started.map (·.id) := by
    intro f hf
    obtain ⟨t, hin, hid⟩ := hids f hf
    exact hid ▸ List.mem_map_of_mem (List.mem_append_right _ hin)
  have hlast : ∀ f ∈ fs, f.1 ∈ (b.add e p.2).submitted.map (·.id) ∧ f.1 ∉ (b.add e p.2).ended := by
    intro f hf
    obtain ⟨t, hin, hid⟩ := hids f hf
    exact hid ▸ hk.starting_of_react he hok hin
  have hstart := (ht.take hk he hk'.fits).starts
    (fun t hin => (hk.starting_of_react he hok hin).1) hk'.fits.once
  have hrefuse := hstart.refusals hfirst fun f hf => (hlast f hf).2
  have hsettle := Told.settle hrefuse hk'.fits hok fun f hf => ⟨f.1, hlast f hf⟩
  obtain rfl := Option.some.inj (hs.symm.trans hsched)
  rw [(foldl_note fs p.1).1, (foldl_note fs p.1).2, hmoments, ← List.append_assoc,
    ← List.append_assoc, ← List.append_assoc]
  refine hsettle.queue hev hnext ?_ ?_
  · intro k f hin
    obtain ⟨j, hj⟩ := hmore _ hin
    cases hj
  · refine List.filterMap_eq_nil_iff.mpr ?_
    intro f hf
    obtain ⟨j, rfl⟩ := hmore f hf
    rfl

/-- A receive ends: if it has failed, its failure is reported or its end never is. -/
theorem Told.arrives {i : Nat} {c : Arrival} {r : Receipt} (ht : Told ms b n (n.Silent b) s.waiters
      s.failure)
    (hk : Kept b [] n s) (hk' : Kept b [] n' s) (pending : n.arrivals[i]? = some c)
    (receipt : net.receipts.find? c.ticket = some r)
    (finishes : Finishes { n with arrivals := n.arrivals.eraseIdx i } c r n') :
    Told (ms ++ (Scene.mk net n (.arrive i) n').moments) b n' (n'.Silent b) s.waiters s.failure := by
  have halive : n.scheduler.isSome := hk.scheduler ▸ rfl
  have hnext : n'.nextBarrier = n.nextBarrier := by rw [finishes.eq]
  have ht' : Told ms b n (n'.Silent b) s.waiters s.failure := by
    refine ht.mono fun k hsilent => ?_
    obtain ⟨t, hin, hid, hj, hzero⟩ := hsilent
    refine ⟨t, hin, hid, hj, Nat.le_zero.mp ?_⟩
    exact hzero ▸ (finishes.dues_le pending halive).1
  have hmem := List.mem_of_getElem? pending
  obtain ⟨t, hin, hid, -, src, tag, hjob⟩ := hk.arrivals c hmem
  have hfirst : c.id ∈ b.started.map (·.id) := hid ▸ List.mem_map_of_mem hin
  have hlast : c.id ∉ b.ended := by
    intro hended
    have hdues := hk.dues t hin (by rw [hjob]; rfl)
    have hpos := List.count_pos_iff.mpr hended
    have hcount : 0 < (n.arrivals.map (·.id)).count c.id :=
      List.count_pos_iff.mpr (List.mem_map_of_mem hmem)
    unfold Node.dues at hdues
    rw [hid] at hdues
    omega
  have hmoments : (Scene.mk net n (.arrive i) n').moments =
      (n.failure? c r).toList.map (.missed c.id) := by
    unfold Scene.moments
    dsimp only
    rw [pending]
    dsimp only
    rw [receipt]
    rfl
  rw [hmoments]
  cases finishes with
  | accepts payload block opened fits =>
    have hnone : n.failure? c (.delivered payload) = none := by
      have hopened : (n.openHandle c.handle).2 = .ok block := opened
      unfold Node.failure?
      dsimp only
      rw [hopened]
      exact if_pos fits
    rw [hnone]
    show Told (ms ++ []) b _ _ _ _
    rw [List.append_nil]
    refine ht'.queue (post_events _ (.complete c.id) halive) hnext ?_ rfl
    intro k f h
    cases List.mem_singleton.mp h
  | unopened payload f unopened =>
    have hnone : n.failure? c (.delivered payload) = none := by
      have hunopened : (n.openHandle c.handle).2 = .error f := unopened
      unfold Node.failure?
      dsimp only
      rw [hunopened]
    rw [hnone]
    show Told (ms ++ []) b _ _ _ _
    rw [List.append_nil]
    have hev : (n.openHandle c.handle).1.events = n.events ++ [] := (List.append_nil _).symm
    exact ht'.queue hev hnext nofun rfl
  | abandons _ x e fails =>
    have hsome : n.failure? c r = some e := fails.failure?
    have hm := fails.onlyMemory
    have howner : (x.handle c.handle).owner ≠ x.rank := by
      rw [owner_of_setting hm.setting, hm.rank]
      exact hk.foreign_of_arrival hmem
    rw [hsome]
    by_cases hp : (x.handle c.handle).memory = .poisoned
    · have hev : (x.abandon c e).events = n.events := by
        rw [abandon_of_poisoned howner hp]
        exact hm.events
      have hsilent := silent_of_finishes hk pending (.abandons _ x e fails) hev
      exact ht'.miss hfirst hlast (hev.trans (List.append_nil _).symm) (Or.inr ⟨rfl, hsilent⟩) hnext
    · have hev : (x.abandon c e).events = n.events ++ [.fail c.id e] := by
        have hsome : x.scheduler.isSome := hm.scheduler ▸ halive
        have hposted := post_events (x.setHandle c.handle { x.handle c.handle with
          state := .uninitialized, memory := .absent }) (.fail c.id e) hsome
        rw [abandon_of_unpoisoned howner hp, hposted]
        exact congrArg (· ++ [.fail c.id e]) hm.events
      exact ht'.miss hfirst hlast hev (Or.inl rfl) hnext

/-- Every happening goes on with the chronicle, as long as the scheduler runs. -/
theorem Told.undergo (ht : Told ms b n (n.Silent b) s.waiters s.failure) (hk : Kept b [] n s)
    (h : n.undergo net a = some (net', n')) (hs : n'.scheduler = some s') :
    Told (ms ++ (Scene.mk net n a n').moments) (Scene.note b ⟨net, n, a, n'⟩) n'
      (n'.Silent (Scene.note b ⟨net, n, a, n'⟩)) s'.waiters s'.failure := by
  have hsilent : ∀ k, n.Silent b k → n'.Silent (Scene.note b ⟨net, n, a, n'⟩) k :=
    fun k hk' => hk'.undergo hk h hs
  have hkept := hk.undergo h hs
  cases undergoes_of_undergo h with
  | calls call calls edits =>
    obtain rfl : s = s' := Option.some.inj (hk.scheduler.symm.trans (calls.scheduler.symm.trans hs))
    have hmoments : (Scene.mk net n a n').moments = [] := by
      cases a with
      | take => cases call
      | arrive i => cases call
      | _ => rfl
    rw [Scene.note_of_isCall call] at hsilent ⊢
    rw [hmoments, List.append_nil]
    exact (ht.calls hk.scheduler calls).mono hsilent
  | takes takes =>
    obtain ⟨e, events, p, queue, react, rfl, rfl⟩ := takes.reacts_of_alive hk.scheduler (hs ▸ rfl)
    rw [Scene.note_of_react hk.scheduler queue react] at hsilent ⊢
    exact (ht.reacts hk queue react hs).mono hsilent
  | works i w queued =>
    have hrun := onlyMemory_run ({ n with work := n.work.eraseIdx i } : Node α) w.op
    rw [post_scheduler, hrun.scheduler] at hs
    obtain rfl : s = s' := Option.some.inj (hk.scheduler.symm.trans hs)
    show Told (ms ++ []) b _ _ _ _
    rw [List.append_nil]
    have hev := post_events (({ n with work := n.work.eraseIdx i } : Node α).run w.op)
      (.complete w.id) (by rw [hrun.scheduler]; exact hs ▸ rfl)
    rw [hrun.events] at hev
    refine (ht.queue hev ?_ ?_ rfl).mono hsilent
    · rw [post_eq, hrun.eq]
    · intro k f hin
      cases List.mem_singleton.mp hin
  | arrives i c r pending receipt finishes =>
    obtain rfl : s = s' :=
      Option.some.inj (hk.scheduler.symm.trans (finishes.scheduler.symm.trans hs))
    exact ht.arrives hk hkept pending receipt finishes

theorem Course.told (course : n₀.Course scenes n) (fresh : n₀.Fresh) (hs : n.scheduler = some s) :
    Told (chronicle scenes) (Scene.record scenes) n (n.Silent (Scene.record scenes)) s.waiters
      s.failure := by
  induction course generalizing s with
  | nil =>
    obtain rfl : {} = s := Option.some.inj (fresh.scheduler.symm.trans hs)
    constructor
    case sounds => exact sounds_nil
    case submitted => exact fun k => iff_of_false List.not_mem_nil List.not_mem_nil
    case started => exact fun k => iff_of_false List.not_mem_nil List.not_mem_nil
    case ended => exact fun k => iff_of_false List.not_mem_nil List.not_mem_nil
    case fails =>
      rw [fresh.events]
      exact nofun
    case missed => exact nofun
    case once =>
      rw [fresh.events]
      exact List.nodup_nil
    case below =>
      rw [fresh.events]
      exact nofun
    case answered => exact rfl
    case failure => exact rfl
  | snoc a course step ih =>
    obtain ⟨s', hs'⟩ := Option.isSome_iff_exists.mp (alive_of_undergo step (hs ▸ rfl))
    rw [Scene.record_append_singleton, chronicle_append_singleton]
    exact (ih hs').undergo (course.kept fresh hs') step hs

/-- Whatever events a scheduler takes, barriers are answered only when everything that was submitted
has ended, no barrier is left waiting then, and every failure that is handed out is handed out once,
to the first barrier that is answered after it was kept. -/
theorem Course.barriers_sound (course : n₀.Course scenes n) (fresh : n₀.Fresh)
    (hs : n.scheduler = some s) : Barriers (chronicle scenes) s := by
  have ht := course.told fresh hs
  have hk := course.kept fresh hs
  refine ⟨ht.sounds, ?_, ?_, ht.once.of_append_left, ht.answered, ht.failure⟩
  · intro k
    rw [hk.fits.unfinished, ht.submitted, ht.ended]
  · rcases Bool.eq_false_or_eq_true s.graph.isEmpty with h | h
    · exact Or.inl (hk.fits.barrier h)
    · exact Or.inr h

/-- Two barriers wait for a message that is refused and for a receive that is handed a message of the
wrong length: the first is told of the refusal, which came first, and the second of nothing. -/
theorem Course.barriers_sound_of_refusal :
    ∃ (n₀ : Node (ElementType.Value .i64)) (scenes : List (Scene (ElementType.Value .i64)))
      (n : Node (ElementType.Value .i64)) (s : Scheduler (ElementType.Value .i64)),
      n₀.Fresh ∧ n₀.Course scenes n ∧ n.scheduler = some s ∧ Barriers (chronicle scenes) s ∧
      ∃ e f, chronicle scenes = [.submitted 0, .started 0, .missed 0 e, .noted 0 e, .submitted 1,
        .started 1, .called 0, .called 1, .ended 0, .missed 1 f, .noted 1 f, .ended 1,
        .answered [(0, some e), (1, none)]] := by
  let n₀ : Node (ElementType.Value .i64) :=
    { rank := 0, size := 2, codelets := [],
      handles := [.new 1 0 (some ⟨7⟩), .new 1 1 (some ⟨8⟩)] }
  let w₀ : World (ElementType.Value .i64) :=
    { cluster := { mailboxes := [{}, {}], severed := [(0, 1)] }, nodes := [n₀, default] }
  let e : TaskError := .transfer ("send " ++ Tag.text ⟨7⟩ ++ " to 1") (.noSuchRank 1 2)
  let f : TaskError := .payload ("recv " ++ Tag.text ⟨8⟩ ++ " from 1") 8 3
  obtain ⟨scenes, w, course, hmoments, halive⟩ := w₀.exists_of_play
    [.inl (0, .transfer 0 1), .inl (0, .transfer 1 0), .inl (0, .wait), .inl (0, .wait),
      .inl (0, .take), .inl (0, .take), .inl (0, .take), .inl (0, .take), .inl (0, .take),
      .inr (.send 1 0 ⟨8⟩ [1, 2, 3]), .inl (0, .arrive 0), .inl (0, .take)]
    (fun scenes w => chronicle (scenes 0) = [.submitted 0, .started 0, .missed 0 e, .noted 0 e,
      .submitted 1, .started 1, .called 0, .called 1, .ended 0, .missed 1 f, .noted 1 f, .ended 1,
      .answered [(0, some e), (1, none)]] ∧ (w.node 0).scheduler.isSome)
    (by decide +kernel)
  obtain ⟨s, hs⟩ := Option.isSome_iff_exists.mp halive
  have fresh : n₀.Fresh := by
    refine fresh_of_handles 0 2 [] ?_
    rintro e he
    rcases List.mem_cons.mp he with rfl | he
    · exact ⟨rfl, Coherence.noConfusion⟩
    · obtain rfl := List.mem_singleton.mp he
      exact ⟨rfl, Coherence.noConfusion⟩
  exact ⟨n₀, _, _, s, fresh, course.node 0, hs, (course.node 0).barriers_sound fresh hs, e, f, hmoments⟩

end

end Node

end TiledTensor
