import TiledTensor.Proofs.Performing

/-!
# Execution in the order of submission

A rank runs tasks in whatever order their conflicts allow, and events are processed when they are.
Here this is compared with the plain execution of the same history: each operation is run to its end
when it is submitted, and each accessor is opened, written and given up where it was asked for.

A rank that takes part in no transfer has exactly the entries of its history on its ledger, and its
scheduler never stops.  What the ledger says about values is `Node.Run.seen_in_order`.
-/

namespace TiledTensor

variable {α : Type} [Scalar α]

namespace Entry

/-- What an entry of the rank itself does to the values of buffers. -/
def deed : Entry α → Deed α
  | task _ op => Deed.ofOp op
  | guard _ h a puts => Deed.puts h a puts
  | transfer .. | flush _ => Deed.idle []

/-- Performs an entry on the spot. -/
def perform (n : Node α) : Entry α → Node α
  | task _ op => n.run op
  | guard _ h a puts => puts.foldl (fun n block => (n.enterWrite ⟨h, a, .granted⟩ block).getD n) n
  | transfer .. | flush _ => n

end Entry

/-- Performs a history, one entry after the other. -/
def Node.replay (n : Node α) (hist : List (Entry α)) : Node α := hist.foldl Entry.perform n

/-! ## What plain execution shows -/

namespace Node

variable {n n' : Node α}

/-- A write that is attempted shows what it should, also where it is refused. -/
theorem shows_enterWrite_getD {a : Accessor} (hb : a.handle < n.handles.length) (block : List α) :
    n.OnlyMemory ((n.enterWrite a block).getD n) ∧
      ((n.enterWrite a block).getD n).shows =
        (Deed.puts a.handle a.access [block]).effect n.shows := by
  cases h : n.enterWrite a block with
  | some m => exact Account.enterWrite_eq_some hb h
  | none =>
    refine ⟨.refl n, ?_⟩
    show n.shows = if a.access.writes = true then _ else _
    by_cases hw : a.access.writes = true
    · have hnone : n.shows a.handle = none := by
        rw [← openHandle_snd_toOption]
        unfold enterWrite enter write at h
        generalize n.openHandle a.handle = p at h ⊢
        obtain ⟨p, r⟩ := p
        cases r with
        | error f => rfl
        | ok old =>
          dsimp only at h
          rw [if_pos hw] at h
          cases h
      rw [if_pos hw, List.foldl_cons, List.foldl_nil, hnone]
      funext j
      by_cases hj : j = a.handle
      · rw [hj, Store.set_self, hnone]
        rfl
      · rw [Store.set_of_ne _ _ hj]
    · rw [if_neg hw]

theorem shows_foldl_enterWrite {a : Accessor} (hb : a.handle < n.handles.length)
    (puts : List (List α)) :
    n.OnlyMemory (puts.foldl (fun n block => (n.enterWrite a block).getD n) n) ∧
      (puts.foldl (fun n block => (n.enterWrite a block).getD n) n).shows =
        (Deed.puts a.handle a.access puts).effect n.shows := by
  induction puts generalizing n with
  | nil =>
    exact ⟨.refl n, (Deed.puts_nil_effect a.handle a.access n.shows).symm⟩
  | cons block puts ih =>
    obtain ⟨hm, hshows⟩ := shows_enterWrite_getD hb block
    obtain ⟨hm', hshows'⟩ := @ih ((n.enterWrite a block).getD n) (hm.length ▸ hb)
    refine ⟨hm.trans hm', ?_⟩
    have hsplit := Deed.puts_append a.handle a.access [block] puts
    rw [List.singleton_append] at hsplit
    rw [List.foldl_cons, hshows', hshows, hsplit]
    rfl

/-- An entry that names buffers of the rank does what its deed says. -/
theorem shows_perform {e : Entry α} (hb : ∀ u ∈ e.deed.uses, u.1 < n.handles.length) :
    n.OnlyMemory (e.perform n) ∧ (e.perform n).shows = e.deed.effect n.shows := by
  cases e with
  | task id op => exact ⟨onlyMemory_run n op, shows_run n op hb⟩
  | guard id h a puts =>
    exact @shows_foldl_enterWrite _ _ n ⟨h, a, .granted⟩ (hb (h, a) List.mem_cons_self) puts
  | transfer h target => exact ⟨.refl n, rfl⟩
  | flush h => exact ⟨.refl n, rfl⟩

/-- A history shows what its deeds leave. -/
theorem shows_replay {hist : List (Entry α)}
    (hb : ∀ e ∈ hist, ∀ u ∈ e.deed.uses, u.1 < n.handles.length) :
    n.OnlyMemory (n.replay hist) ∧
      (n.replay hist).shows = Deed.after n.shows (hist.map Entry.deed) := by
  induction hist generalizing n with
  | nil => exact ⟨.refl n, rfl⟩
  | cons e hist ih =>
    obtain ⟨hm, hshows⟩ := @shows_perform _ _ n e (hb e List.mem_cons_self)
    obtain ⟨hm', hshows'⟩ := @ih (e.perform n) fun e' he' u hu =>
      hm.length ▸ hb e' (List.mem_cons_of_mem _ he') u hu
    refine ⟨hm.trans hm', hshows'.trans ?_⟩
    rw [hshows]
    rfl

/-! ## A rank by itself -/

variable {n₀ : Node α} {net net' : Cluster} {hist : List (Entry α)}
  {V : Nat → Option (List α)} {log : List (Task α)} {done : TaskId → Prop} {todo : List (Task α)}
  {k : TaskId}

theorem deed_of_own {e : Entry α} {i : Nat} (he : e.Own) : n.deed V (i, e) = e.deed := by
  cases e with
  | task id op => rfl
  | guard id h a puts => rfl
  | transfer h r => exact absurd he not_false
  | flush h => exact absurd he not_false

theorem deeds_of_own (hown : ∀ e ∈ hist, e.Own) : n.deeds V hist = hist.map Entry.deed := by
  unfold deeds
  rw [duties_of_own hown, List.map_map]
  refine List.map_congr_left ?_
  intro e he
  exact deed_of_own (hown e he)

namespace Ledger

/-- The scheduler takes an event, and does not stop. -/
theorem takeEvent_of_own (hl : n.Ledger n₀ hist V log done []) (hown : ∀ e ∈ hist, e.Own)
    (h : Node.takeEvent net n = some (net', n')) :
    ∃ done', n'.Ledger n₀ hist V log done' [] ∧ n'.scheduler.isSome := by
  obtain ⟨s, e, events, p, -, -, -, hl', rfl, rfl⟩ := hl.takeEvent h
  have hstep : ∀ (t : Task α) todo net m, (∃ done', Ledger m n₀ hist V log done' (t :: todo)) →
      m.scheduler.isSome → (start net m t).2.scheduler.isSome ∧
        ∃ done', (start net m t).2.Ledger n₀ hist V log done' todo := by
    rintro t todo net m ⟨done', hm⟩ hs
    obtain ⟨s, hs⟩ := Option.isSome_iff_exists.mp hs
    obtain ⟨⟨i, e⟩, -, hd, -⟩ := hm.next_duty hs
    have he : e ∈ hist := List.mem_of_getElem? ((getElem?_duties_of_own hown).mp hd).2
    obtain ⟨-, halive, done'', hm', -, -⟩ := start_own net hm hs hd (hown e he)
    exact ⟨halive, done'', hm'⟩
  obtain ⟨⟨done', hm⟩, hs⟩ := startAll_induction
    (P := fun todo _ m => (∃ done', m.Ledger n₀ hist V log done' todo) ∧ m.scheduler.isSome)
    (fun t todo net m hm hs _ => (hstep t todo net m hm.1 hs).symm)
    (fun t todo net m hm hs hdead => absurd (hstep t todo net m hm.1 hs).1 hdead)
    p.2.started net _ rfl ⟨⟨done, hl'⟩, rfl⟩
  exact ⟨done', hm.pass p.2.passed, hs⟩

/-- Nothing is received, since nothing was transferred. -/
theorem arrivals_of_own (hl : n.Ledger n₀ hist V log done todo) (hown : ∀ e ∈ hist, e.Own) :
    n.arrivals = [] := by
  refine List.eq_nil_iff_forall_not_mem.mpr ?_
  intro a ha
  obtain ⟨t, src, tag, ht, hjob⟩ := hl.account.orderly.sound.arrivals a ha
  obtain ⟨⟨i, e⟩, hd, hdesc⟩ := hl.exists_duty ht
  have he := hown e (List.mem_of_getElem? ((getElem?_duties_of_own hown).mp hd).2)
  cases e with
  | task id op => exact absurd (hjob.symm.trans hdesc.2) (by simp)
  | guard id h a puts => exact absurd (hjob.symm.trans hdesc.2.1) (by simp)
  | transfer h r => exact he
  | flush h => exact he

end Ledger

/-- The ledger of a rank after a run that involves no other rank. -/
theorem Run.ledger (V : Nat → Option (List α)) (h₀ : n₀.Fresh)
    (run : Node.Run net n₀ hist net' n) (hown : ∀ e ∈ hist, e.Own) :
    ∃ log done, n.Ledger n₀ hist V log done [] ∧ n.scheduler.isSome := by
  induction run with
  | nil =>
    refine ⟨[], _, h₀.ledger V, ?_⟩
    rw [h₀.scheduler]
    rfl
  | @snoc hist net n net' n' a run step ih =>
    have hprev := Act.own_of_record hown
    obtain ⟨log, done, hl, hs⟩ := ih hprev
    have hacts := acts_of_act step
    by_cases htake : a = .take
    · subst htake
      cases hacts with
      | take ok =>
        obtain ⟨done', hl', hs'⟩ := hl.takeEvent_of_own hprev ok
        exact ⟨log, done', hl', hs'⟩
    · have harrive : ∀ i, a ≠ .arrive i := by
        rintro i rfl
        cases hacts with
        | arrive ok =>
          obtain ⟨a, r, ha, -⟩ := takeArrival_eq_some_iff.mp ok
          rw [hl.arrivals_of_own hprev] at ha
          cases ha
      obtain ⟨-, log', done', hl', -⟩ := hl.act hacts htake harrive
      exact ⟨log', done', hl', (hl.scheduler_of_act hacts htake harrive).symm ▸ hs⟩

/-! ## What is seen -/

namespace Ledger

/-- A computation that is ready finds what the deeds before it leave. -/
theorem seen_by_work (hl : n.Ledger n₀ hist V log done todo) {w : Work α} (hw : w ∈ n.work) :
    Store.EqOn (fun h => ∃ a, (h, a) ∈ w.op.uses) n.shows
      (Deed.after n₀.shows ((n₀.deeds V hist).take w.id)) := by
  have hs := hl.account.orderly.sound
  obtain ⟨i, t, hd, ht, hjob⟩ := hl.entry_of_work hw
  have hactive : n.Active w.id := Or.inl ⟨w, hw, rfl⟩
  rintro h ⟨a, hu⟩
  refine hl.account.faithful.seen hs (getElem?_deeds hd) ?_ (fun j hj => hs.first j w.id hj hactive)
    hu
  exact hs.not_applied_of_job hactive ht (by simp [hjob])

/-- The rank's own calls name buffers of the rank. -/
theorem bounds_of_own (hl : n.Ledger n₀ hist V log done todo) {e : Entry α} (he : e ∈ hist)
    (hown : e.Own) : ∀ u ∈ e.deed.uses, u.1 < n₀.handles.length := by
  intro u hu
  obtain ⟨i, hmem⟩ := mem_duties_of_own he hown
  obtain ⟨k, hk⟩ := List.getElem?_of_mem hmem
  obtain ⟨t, ht, huses⟩ := getElem?_of_uses hl.account.faithful.uses (getElem?_deeds hk)
  rw [← hl.marks.length]
  refine hl.account.faithful.bounds t (List.mem_of_getElem? ht) u ?_
  rw [huses, deed_of_own hown]
  exact hu

variable (hl : n.Ledger n₀ hist V log done todo) (hown : ∀ e ∈ hist, e.Own)

include hl hown

/-- Plain execution of the beginning of a history. -/
theorem shows_replay_take (k : Nat) :
    n₀.OnlyMemory (n₀.replay (hist.take k)) ∧
      (n₀.replay (hist.take k)).shows = Deed.after n₀.shows ((n₀.deeds V hist).take k) := by
  rw [deeds_of_own hown, ← List.map_take]
  refine shows_replay fun e he => ?_
  have hmem := List.mem_of_mem_take he
  exact hl.bounds_of_own hmem (hown e hmem)

/-- A task that is ready finds in its buffers what plain execution would show it. -/
theorem replayed_to_work {w : Work α} (hw : w ∈ n.work) :
    hist[w.id]? = some (.task w.id w.op) ∧
      (n.openAll w.op.operands).2 =
        ((n₀.replay (hist.take w.id)).openAll w.op.operands).2 := by
  obtain ⟨i, t, hd, -, -⟩ := hl.entry_of_work hw
  have he : hist[w.id]? = some (.task w.id w.op) := ((getElem?_duties_of_own hown).mp hd).2
  obtain ⟨hm, hshows⟩ := hl.shows_replay_take hown w.id
  have hb : ∀ h a, .data h a ∈ w.op.operands → h < n₀.handles.length := by
    intro h a hu
    exact hl.bounds_of_own (List.mem_of_getElem? he) trivial (h, a) (Op.mem_uses_iff.mpr hu)
  refine ⟨he, ?_⟩
  rw [(shows_openAll n w.op.operands fun h a hu => hl.marks.length ▸ hb h a hu).2,
    (shows_openAll _ w.op.operands fun h a hu => hm.length ▸ hb h a hu).2, hshows]
  exact (Store.openAll_congr (hl.seen_by_work hw) w.op.operands
    fun h a hu => ⟨a, Op.mem_uses_iff.mpr hu⟩).2

/-- The holder of an accessor finds in the buffer what plain execution would show it. -/
theorem replayed_to_holder {a : Accessor} (ha : n.held k = some a) :
    (∃ puts, hist[k]? = some (.guard k a.handle a.access puts)) ∧
      (n.enter a).2.toOption = ((n₀.replay (hist.take (k + 1))).enter a).2.toOption := by
  obtain ⟨hacc, hg⟩ := held_eq_some_iff.mp ha
  obtain ⟨i, puts, hd⟩ := hl.duty_of_accessor hacc
  refine ⟨⟨puts, ((getElem?_duties_of_own hown).mp hd).2⟩, ?_⟩
  unfold enter
  rw [openHandle_snd_toOption, openHandle_snd_toOption, (hl.shows_replay_take hown (k + 1)).2]
  exact hl.account.faithful.held hl.account.orderly.sound (getElem?_deeds hd) hacc hg
    (b := a.access) List.mem_cons_self

/-- When nothing is left to do, everybody finds what plain execution leaves. -/
theorem replayed_in_the_end {s : Scheduler α} (hs : n.scheduler = some s)
    (hg : s.graph.isEmpty = true) (he : n.events = []) : n.shows = (n₀.replay hist).shows := by
  have hdone := hl.account.done_of_isEmpty hs hg (by simp [he])
  rw [hl.account.faithful.final hdone, (shows_replay fun e he => hl.bounds_of_own he (hown e he)).2,
    deeds_of_own hown]

end Ledger

/-- Whatever the order in which tasks run and events are processed, every task and every holder of
an accessor finds in its buffers what plain execution in the order of submission would show, and so
does everybody in the end. -/
theorem Run.seen_in_order (h₀ : n₀.Fresh) (run : Node.Run net n₀ hist net' n)
    (hown : ∀ e ∈ hist, e.Own) :
    (∀ w ∈ n.work, hist[w.id]? = some (.task w.id w.op) ∧
      (n.openAll w.op.operands).2 =
        ((n₀.replay (hist.take w.id)).openAll w.op.operands).2) ∧
    (∀ id a, n.held id = some a →
      (∃ puts, hist[id]? = some (.guard id a.handle a.access puts)) ∧
      (n.enter a).2.toOption = ((n₀.replay (hist.take (id + 1))).enter a).2.toOption) ∧
    ∃ s, n.scheduler = some s ∧
      (s.graph.isEmpty = true → n.events = [] → n.shows = (n₀.replay hist).shows) := by
  obtain ⟨log, done, hl, halive⟩ := run.ledger (fun _ => none) h₀ hown
  obtain ⟨s, hs⟩ := Option.isSome_iff_exists.mp halive
  refine ⟨?_, ?_, s, hs, ?_⟩
  · intro w hw
    exact hl.replayed_to_work hown hw
  · intro id a ha
    exact hl.replayed_to_holder hown ha
  · intro hg he
    exact hl.replayed_in_the_end hown hs hg he

/-- A copy is submitted while its source is held for writing.  It runs after the holder, and finds
what the holder wrote. -/
theorem Run.seen_in_order_of_copy :
    ∃ (n₀ : Node (ElementType.Value .i64)) (hist : List (Entry (ElementType.Value .i64)))
      (net : Cluster) (n : Node (ElementType.Value .i64)),
      n₀.Fresh ∧ Node.Run { mailboxes := [] } n₀ hist net n ∧ (∀ e ∈ hist, e.Own) ∧
      ∃ w ∈ n.work, hist[w.id]? = some (.task w.id w.op) ∧
        (n.openAll w.op.operands).2 = some [.shared [7], .exclusive [0]] ∧
        ((n₀.replay (hist.take w.id)).openAll w.op.operands).2 =
          some [.shared [7], .exclusive [0]] := by
  let n₀ : Node (ElementType.Value .i64) :=
    { rank := 0, size := 1, codelets := ["copy"], handles := [.new 1 0 none, .new 1 0 none] }
  let op : Op (ElementType.Value .i64) := ⟨"copy", [.data 0 .read, .data 1 .write], Codelet.copy⟩
  have run : Node.Run { mailboxes := [] } n₀ [] _ _ := .nil
  have run := run.snoc (.acquire 0 .write) rfl
  have run := run.snoc .take rfl
  have run := run.snoc (.put 0 [(7 : ElementType.Value .i64)]) rfl
  have run := run.snoc (.call (.submit op)) rfl
  have run := run.snoc (.release 0) rfl
  have run := run.snoc .take rfl
  have run := run.snoc .take rfl
  have h₀ : n₀.Fresh := by
    refine fresh_of_handles 0 1 ["copy"] ?_
    rintro e he
    obtain rfl | rfl := List.mem_pair.mp he <;> exact ⟨rfl, Coherence.noConfusion⟩
  have hown : ∀ e ∈ [Entry.guard 0 0 .write [[(7 : ElementType.Value .i64)]], .task 1 op],
      e.Own := by
    simp [Entry.Own]
  have hseen := (Run.seen_in_order h₀ run hown).1 ⟨1, op⟩ List.mem_cons_self
  refine ⟨n₀, _, _, _, h₀, run, hown, ⟨1, op⟩, List.mem_cons_self, hseen.1, ?_, hseen.2.symm.trans ?_⟩
  · rfl
  · rfl

end Node

end TiledTensor
