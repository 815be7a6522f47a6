import TiledTensor.Proofs.Calm

/-!
# The double of a rank goes along

Whatever a rank does that makes tensors and gives them up, its double comes to the same without
giving any up: where the rank queues a task that retires tags, the double is asked for an operation
that does nothing. The double has all buffers from the start.

The double takes its events before the rank takes an event of its own, so it may make several steps
for one, or none (`Node.Doubled.tend`).
-/

namespace TiledTensor

variable {α : Type}

/-! ## Fewer tasks in common -/

theorem Event.hidden_append (e : Event α) (R : List TaskId) (k : TaskId) :
    e.hidden (R ++ [k]) = (e.hidden R || e.hidden [k]) := by
  cases e <;> simp [Event.hidden]

theorem seen_widen (R : List TaskId) (k : TaskId) (events : List (Event α)) :
    seen (R ++ [k]) events = seen [k] (seen R events) := by
  unfold seen
  rw [List.filter_filter]
  refine List.filter_congr fun e _ => ?_
  rw [Event.hidden_append, Bool.not_or, Bool.and_comm]

namespace Node

variable {R : List TaskId} {tasks tasks' : Roster} {n n' : Node α} {x y : Guise α} {net net' : Cluster}
  {hist : List (Entry α)} {m : Mail} {k : TaskId} {e : Event α}

/-- The rank queues a task, and its double another one with the same number. -/
theorem Abreast.widen (h : Abreast R tasks tasks' n x)
    (hpending : ∀ s, n.scheduler = some s → s.pending.find? k = none)
    (hkeys : k ∉ n.accessors.keys) : Abreast (R ++ [k]) tasks tasks' n x := by
  refine ⟨?_, ?_, fun j hj hin => ?_⟩
  · rcases h.cases with ⟨hn, hx⟩ | ⟨s, s', hn, hx, twin⟩
    · rw [hn, hx]
      exact .stopped
    · rw [hn, hx]
      exact .running (twin.widen (hpending s hn))
  · rw [seen_widen, seen_widen, h.events]
  · rcases List.mem_append.mp hin with hin | hin
    · exact h.keys j hj hin
    · exact hkeys (List.mem_singleton.mp hin ▸ hj)

/-! ## Ways of a rank -/

/-- What a rank comes to by actions, with its history and its mail. -/
inductive Reaches [Scalar α] (n : Node α) (net : Cluster) (hist : List (Entry α)) (m : Mail) :
    Node α → Cluster → List (Entry α) → Mail → Prop
  | refl : Reaches n net hist m n net hist m
  | snoc {n' net' hist' m' n'' net''} (a : Act α) (before : Reaches n net hist m n' net' hist' m')
      (step : n'.act net' a = some (net'', n'')) :
      Reaches n net hist m n'' net'' (a.record n' hist') (a.mail net' n' m')

variable [Scalar α]

/-- When an event is taken something may be sent, but nothing is queued or received. -/
theorem mail_take (net : Cluster) (n : Node α) (m : Mail) :
    (Act.mail net n m .take).asked = m.asked ∧ (Act.mail net n m .take).taken = m.taken := by
  unfold Act.mail
  dsimp only
  split
  · split <;> exact ⟨rfl, rfl⟩
  · exact ⟨rfl, rfl⟩

/-- What concerns nobody else leaves no trace, but for what is sent. -/
theorem Quiets.reaches (h : n.Quiets net n') (hist : List (Entry α)) (m : Mail) :
    ∃ m', n.Reaches net hist m n' net hist m' ∧ m'.asked = m.asked ∧ m'.taken = m.taken := by
  induction h with
  | refl => exact ⟨m, .refl, rfl, rfl⟩
  | @snoc n'' n' a quiet before step ih =>
    obtain ⟨m', hway, hasked, htaken⟩ := ih
    rcases quiet with rfl | ⟨i, rfl⟩
    · obtain ⟨hasked', htaken'⟩ := mail_take net n'' m'
      exact ⟨_, hway.snoc .take step, hasked'.trans hasked, htaken'.trans htaken⟩
    · exact ⟨_, hway.snoc (.work i) step, hasked, htaken⟩

end Node

/-- A run of the world goes on with what one of its ranks does. -/
theorem World.Run.reaches [Scalar α] {w₀ w : World α} {hists : Rank → List (Entry α)}
    {mails : Rank → Mail} {r : Rank} {n : Node α} {net : Cluster} {hist : List (Entry α)} {m : Mail}
    (run : w₀.Run hists mails w) (hr : r < w.size)
    (h : (w.node r).Reaches w.cluster (hists r) (mails r) n net hist m) : ∃ w',
      w₀.Run (Function.update hists r hist) (Function.update mails r m) w' ∧ w'.size = w.size ∧
        w'.cluster = net ∧ w'.node = Function.update w.node r n := by
  induction h with
  | refl =>
    refine ⟨w, ?_, rfl, rfl, (Function.update_eq_self r w.node).symm⟩
    rw [Function.update_eq_self, Function.update_eq_self]
    exact run
  | @snoc n' net' hist' m' n'' net'' a before step ih =>
    obtain ⟨w', run', hsize, hcluster, hnode⟩ := ih
    have hr' : r < w'.size := hsize.symm ▸ hr
    have hself : w'.node r = n' := by rw [hnode, Function.update_self]
    have hact : w'.act r a = some { w'.setNode r n'' with cluster := net'' } := by
      unfold World.act
      rw [if_pos hr', hself, hcluster, step]
      rfl
    have hnext := run'.snoc r a hact
    obtain ⟨-, net₁, n₁, hstep, hc, hs, hn⟩ := World.act_eq_some hact
    rw [hself, hcluster] at hstep hnext
    obtain ⟨rfl, rfl⟩ := Prod.mk.inj (Option.some.inj (step.symm.trans hstep))
    refine ⟨_, ?_, hs.trans hsize, rfl, ?_⟩
    · rwa [Function.update_self, Function.update_self, Function.update_idem, Function.update_idem]
        at hnext
    · rw [hn, hnode, Function.update_idem]

/-! ## The double of a rank -/

namespace Node

variable {R : List TaskId} {tasks tasks' : Roster} {n n' : Node α} {x y : Guise α} {net net' : Cluster}
  {hist : List (Entry α)} {m : Mail} {k : TaskId} {e : Event α} {first : Tag} {d d' : Diary α}
  {tiles : List Tensor.Blueprint} {p : Tending α} {s : Scheduler α}

/-- A rank that makes the tiles one after the other, beside its double, which has all of them. -/
structure Doubled (tiles : List Tensor.Blueprint) (d : Diary α) (n : Node α) (x : Guise α) : Prop where
  rest : x.rest = (tiles.drop n.handles.length).map Tensor.Blueprint.handle
  codelets : x.codelets = "idle" :: n.codelets
  isSome : x.scheduler.isSome = n.scheduler.isSome
  abreast : n.scheduler.isSome → ∃ tasks', Abreast d.retired d.record.roster tasks' n x ∧
    x.Light d.retired tasks' ∧ ∀ z ∈ x.agenda tasks', z.1 < n.nextTask

/-- The tasks that a rank has been given are numbered in turn. -/
theorem Tended.sorted (ht : n.Tended first d s) :
    ((n.given d.record).map (·.id)).Pairwise (· < ·) := by
  show ((d.record.submitted ++ submits n.events).map _).Pairwise _
  rw [ht.kept.numbered]
  exact List.pairwise_lt_range

theorem Tended.id_lt {t : Task α} (ht : n.Tended first d s) (hin : t ∈ n.given d.record) :
    t.id < n.nextTask := by
  have hmem : t.id ∈ (d.record.submitted ++ submits n.events).map (·.id) := List.mem_map_of_mem hin
  rw [ht.kept.numbered] at hmem
  exact List.mem_range.mp hmem

theorem Tended.retired_lt (ht : n.Tended first d s) (hk : k ∈ d.retired) : k < n.nextTask := by
  obtain ⟨T, hdrop⟩ := Diary.Accounts.exists_drop hk
  obtain ⟨u, hu, rfl, -⟩ := ht.accounts.drops _ hdrop
  exact ht.id_lt hu

/-- Tasks that retire tags are no accessors. -/
theorem Tended.notMem_keys (ht : n.Tended first d s) : ∀ k ∈ n.accessors.keys, k ∉ d.retired := by
  intro k hk hin
  obtain ⟨a, ha⟩ := Option.isSome_iff_exists.mp (Table.has_iff.mpr hk)
  obtain ⟨-, t, ht', hid, hjob⟩ := ht.kept.accessors k a ha
  obtain ⟨T, hdrop⟩ := Diary.Accounts.exists_drop hin
  have hretires := ht.accounts.retires_of_mem ht.kept.nodup hdrop ht' hid
  rw [hretires.job] at hjob
  cases hjob

/-! ### Actions -/

theorem seen_push (h : seen R x.events = seen R n.events) {new : List (Event α)}
    (he : n'.events = n.events ++ new) : seen R (x.push new).events = seen R n'.events := by
  show seen R (x.events ++ new) = _
  rw [he, seen_append, seen_append, h]

variable [Scalar α]

theorem scheduler_of_act {a : Act α} (ha : a ≠ .take)
    (h : n.act net a = some (net', n')) : n'.scheduler = n.scheduler := by
  have hstep := undergo_of_act h
  by_cases hcall : a.happening.isCall = true
  · exact (calls_of_undergo hcall hstep).2.scheduler
  · cases acts_of_act h with
    | take ok => exact absurd rfl ha
    | work ok =>
      obtain ⟨w, -, rfl⟩ := runWork_eq_some_iff.mp ok
      exact scheduler_work n _ w
    | arrive ok =>
      obtain ⟨c, r, -, -, hr, -, rfl⟩ := takeArrival_eq_some_iff.mp ok
      exact (finishes_of_finish _ c hr).scheduler
    | _ => exact absurd rfl hcall

theorem record_of_act {a : Act α} (ha : a ≠ .take) : (d.act net n a n').record = d.record := by
  cases a with
  | call c => cases c <;> rfl
  | take => exact absurd rfl ha
  | _ => rfl

/-- The double acts with its rank. -/
theorem Doubled.act {a : Act α} (h : n.Doubled tiles d x) (hl : n.Licit)
    (ht : ∀ s, n.scheduler = some s → n.Tended first d s)
    (ht' : ∀ s, n'.scheduler = some s → n'.Tended first (d.act net n a n') s) (ha : a ≠ .take)
    (step : n.act net a = some (net', n')) : ∃ y : Guise α,
      (n.under x).act net a = some (net', n'.under y) ∧ n'.Doubled tiles (d.act net n a n') y := by
  have hcodelets : n.codelets ⊆ x.codelets := h.codelets ▸ List.subset_cons_self ..
  obtain ⟨m', hm', new, hnew, rfl⟩ := mirrors_act h.isSome hl hcodelets ha step
  have hundergo := undergo_of_act step
  have hs := scheduler_of_act ha step
  refine ⟨x.push new, hm', ?_, ?_, ?_, fun halive => ?_⟩
  · rw [length_of_setting (setting_of_undergo hundergo)]
    exact h.rest
  · rw [codelets_of_undergo hundergo]
    exact h.codelets
  · rw [hs]
    exact h.isSome
  rw [hs] at halive
  obtain ⟨s, hs₀⟩ := Option.isSome_iff_exists.mp halive
  have htended := ht s hs₀
  have htended' := ht' s (hs.trans hs₀)
  obtain ⟨tasks', habreast, hlight, hlt⟩ := h.abreast halive
  have hnext : Abreast d.retired d.record.roster tasks' n' (x.push new) :=
    ⟨hs ▸ habreast.schedulers, seen_push habreast.events hnew, htended'.notMem_keys⟩
  refine ⟨tasks', ?_, ?_⟩
  · rw [record_of_act ha]
    exact hnext
  · -- the action queues nothing, or one task
    have hqueues : n.Queueing a n' := by
      by_cases hcall : a.happening.isCall = true
      · exact queueing_of_call halive hcall step
      · have hgiven := given_of_own htended.kept (Bool.eq_false_iff.mpr hcall) hundergo (hs.trans hs₀)
        refine .nothing ?_ (nextTask_of_given htended.kept htended'.kept hgiven)
        have hrecord : Scene.note d.record ⟨net, n, a.happening, n'⟩ = d.record :=
          record_of_act (d := d) ha
        rw [hrecord] at hgiven
        exact List.append_cancel_left hgiven
    cases hqueues with
    | nothing submits nextTask =>
      rw [hnew, submits_append] at submits
      have hnone : TiledTensor.submits new = [] := List.append_right_eq_self.mp submits
      have hsame : (x.push new).agenda tasks' = x.agenda tasks' := by
        rw [Guise.agenda_push, hnone]
        exact List.append_nil _
      refine ⟨hlight.of_agenda hsame ?_, ?_⟩
      · show TiledTensor.submits (x.events ++ new) ⊆ _
        rw [submits_append, hnone, List.append_nil]
        exact fun _ hin => hin
      · rw [hsame, nextTask]
        exact hlt
    | task u orders submits nextTask =>
      rw [hnew, submits_append] at submits
      have hone : TiledTensor.submits new = [u] := List.append_cancel_left submits
      refine ⟨hlight.push (orders.id ▸ hlt) hone (fun j hj => Or.inl hj) fun hin => ?_, ?_⟩
      · have hlt' := htended.retired_lt hin
        rw [orders.id] at hlt'
        exact absurd hlt' (Nat.lt_irrefl _)
      · rw [Guise.agenda_push, hone, nextTask]
        intro z hz
        rcases List.mem_append.mp hz with hz | hz
        · exact Nat.lt_succ_of_lt (hlt z hz)
        · obtain rfl := List.mem_singleton.mp hz
          exact orders.id ▸ Nat.lt_succ_self _

/-! ### Events -/

omit [Scalar α] in
theorem roster_add (b : Scheduler.Record α) (e : Event α) (r : Reaction α) :
    (b.add e r).roster = b.roster ++ e.entries := by
  cases e with
  | submit t => exact List.map_append
  | _ => exact (List.append_nil _).symm

omit [Scalar α] in
/-- Up to the next event the tasks of a rank come in the order of their numbers, and nobody waits
for those that retire tags. -/
theorem Tended.roster_cons {events : List (Event α)} (ht : n.Tended first d s)
    (he : n.events = e :: events) : ((d.record.roster ++ e.entries).map (·.1)).Pairwise (· < ·) ∧
      (d.record.roster ++ e.entries).Spares d.retired := by
  have hgiven : (n.given d.record).map Task.entry =
      d.record.roster ++ e.entries ++ (submits events).map Task.entry := by
    rw [given, he, List.map_append, ← entries_append_submits, List.append_assoc]
    rfl
  constructor
  · have hsorted := ht.sorted
    have hids : (n.given d.record).map (·.id) = ((n.given d.record).map Task.entry).map (·.1) := by
      rw [List.map_map]
      rfl
    rw [hids, hgiven, List.map_append] at hsorted
    exact (List.pairwise_append.mp hsorted).1
  · have hspares := ht.accounts.spares
    rw [hgiven] at hspares
    exact hspares.left

omit [Scalar α] in
/-- A double that has caught up is next told of what its rank is told of. -/
theorem Abreast.exists_cons {events : List (Event α)} (h : Abreast R tasks tasks' n x)
    (he : n.events = e :: events) (hseen : e.hidden R = false)
    (hhead : ∀ f ∈ x.events.head?, f.hidden R = false) : ∃ events', x.events = e :: events' := by
  have hsame := h.events
  rw [he, seen_cons_of_not_hidden hseen] at hsame
  cases hx : x.events with
  | nil =>
    rw [hx] at hsame
    cases hsame
  | cons f events' =>
    rw [hx] at hsame hhead
    rw [seen_cons_of_not_hidden (hhead f rfl), List.cons.injEq] at hsame
    exact ⟨events', by rw [hsame.1]⟩

/-- A rank takes an event, and its double catches up and takes it as well. -/
theorem Doubled.take {events : List (Event α)} {q : Scheduler α × Reaction α} (h : n.Doubled tiles d x)
    (hstocked : n.Stocked first d) (ht : n.Tended first d s)
    (ht' : ∀ s, n'.scheduler = some s → n'.Tended first (d.act net n .take n') s)
    (he : n.events = e :: events) (hok : s.react e = .ok q) (hcalm : d.Calm n.rank q.2.started net)
    (step : takeEvent net n = some (net', n')) (hist : List (Entry α)) (m : Mail) :
    ∃ (y : Guise α) (m' : Mail), (n.under x).Reaches net hist m (n'.under y) net' hist m' ∧
      m'.asked = m.asked ∧ m'.taken = m.taken ∧ n'.Doubled tiles (d.act net n .take n') y := by
  have hs := ht.kept.scheduler
  have hundergo : n.undergo net .take = some (net', n') := step
  obtain ⟨tasks', habreast, hlight, hlt⟩ := h.abreast (hs ▸ rfl)
  obtain ⟨hsort, hspares⟩ := ht.roster_cons he
  have hrecord : (d.act net n .take n').record = d.record.add e q.2 := Scene.note_of_react hs he hok
  have hroster : (d.act net n .take n').record.roster = d.record.roster ++ e.entries := by
    rw [hrecord, roster_add]
  have hlen := length_of_setting (setting_of_undergo hundergo)
  have hcodelets := codelets_of_undergo hundergo
  have hnextTask : n'.scheduler.isSome → n'.nextTask = n.nextTask := by
    intro halive
    obtain ⟨s', hs'⟩ := Option.isSome_iff_exists.mp halive
    exact nextTask_of_given ht.kept (ht' s' hs').kept
      (given_of_own ht.kept (x := .take) rfl hundergo hs')
  -- what the rank comes to is beside its double, if the double has been given the same
  have hdoubled : ∀ {y : Guise α} {tasks'' : Roster}, y.rest = x.rest → y.codelets = x.codelets →
      Abreast d.retired (d.record.roster ++ e.entries) tasks'' n' y → y.Light d.retired tasks'' →
      y.agenda tasks'' = x.agenda tasks' → n'.Doubled tiles (d.act net n .take n') y := by
    intro y tasks'' hrest hcode hab hlight' hagenda
    refine ⟨?_, ?_, hab.isSome_eq, fun halive => ⟨tasks'', ?_, hlight', ?_⟩⟩
    · rw [hrest, hlen]
      exact h.rest
    · rw [hcode, hcodelets]
      exact h.codelets
    · rw [hroster]
      exact hab
    · rw [hagenda, hnextTask halive]
      exact hlt
  have hsanctions : ∀ t ∈ q.2.started, n.Sanctions t := fun t hin =>
    hstocked.licit.sanctions_of_react hs he hok (Or.inl hin)
  have hidle : ∀ t ∈ q.2.started, t.id ∈ d.retired → ∀ net m, d.Calm n.rank q.2.started net →
      m.rank = n.rank → start net m t = (net, m.post (.complete t.id)) :=
    fun t hin hid net m hc hr => ht.start_retired he hok hin hid hc hr
  by_cases hhidden : e.hidden d.retired = true
  · obtain ⟨rfl, y, hy, hkin, hab⟩ := habreast.take_hidden hs he hhidden hspares.left hsort hok hcalm
      hsanctions hidle step
    have hagenda : y.agenda tasks' = x.agenda tasks' := by
      unfold Guise.agenda
      rw [hkin.submits]
    refine ⟨y, m, ?_, rfl, rfl, hdoubled hkin.rest hkin.codelets hab (hlight.of_agenda hagenda ?_) hagenda⟩
    · rw [hy]
      exact .refl
    · exact fun _ hin => hkin.submits ▸ hin
  · have hseen : e.hidden d.retired = false := Bool.eq_false_iff.mpr hhidden
    obtain ⟨y, tasks'', hquiets, hrest, hcode, hagenda, hhead, hab, hlight'⟩ :=
      habreast.exists_catchUp hs hlight net
    obtain ⟨events', hy⟩ := hab.exists_cons he hseen hhead
    have hspares' : (tasks'' ++ e.entries).Spares d.retired := by
      have hall := hlight'.spares
      rw [← Guise.agenda_cons tasks'' hy] at hall
      exact hall.left
    obtain ⟨z, hz, hrest', hcode', hsubmits, hab'⟩ := hab.exists_take hs he hy hseen hspares hspares'
      hsort (hlight'.sorted_cons hy) hok hcalm hsanctions hidle
      (fun t hin hid net m hc _ => ht.calm_start hstocked he hok hin hid hc) step
    have hsame : z.agenda (tasks'' ++ e.entries) = y.agenda tasks'' := by
      rw [← Guise.agenda_cons tasks'' hy, Guise.agenda, hsubmits]
    obtain ⟨m', hway, hasked, htaken⟩ := hquiets.reaches hist m
    obtain ⟨hasked', htaken'⟩ := mail_take net (n.under y) m'
    refine ⟨z, _, hway.snoc .take hz, hasked'.trans hasked, htaken'.trans htaken,
      hdoubled (hrest'.trans hrest) (hcode'.trans hcode) hab' (hlight'.of_agenda hsame ?_)
        (hsame.trans hagenda)⟩
    rw [hsubmits, hy]
    exact submits_subset_cons e events'

/-! ### Tensors -/

omit [Scalar α] in
theorem under_enqueue (n : Node α) (x : Guise α) (name : String) (uses : List (HandleId × Access))
    (job : Job α) : (n.enqueue name uses job).1.under x =
      ({ n with nextTask := n.nextTask + 1 } : Node α).under x := by
  unfold enqueue
  dsimp only
  split
  · exact under_post _ _ _
  · rfl

omit [Scalar α] in
theorem enqueue_under (hx : x.scheduler.isSome) (name : String) (uses : List (HandleId × Access))
    (job : Job α) : (n.under x).enqueue name uses job =
      (({ n with nextTask := n.nextTask + 1 } : Node α).under
        (x.push [.submit ⟨n.nextTask, name, uses, job⟩]), .ok n.nextTask) := by
  have hpost : x.post (.submit ⟨n.nextTask, name, uses, job⟩) =
      x.push [.submit ⟨n.nextTask, name, uses, job⟩] := if_pos hx
  rw [← hpost, ← post_under]
  exact if_pos hx

/-- Where a rank queues a task, its double is asked for an operation that does nothing. -/
theorem act_submit_idle (hx : x.scheduler.isSome) (hidle : "idle" ∈ x.codelets) (name : String)
    (uses : List (HandleId × Access)) (job : Job α) :
    (n.under x).act net (.call (.submit .idle)) = some (net, (n.enqueue name uses job).1.under
      (x.push [.submit ⟨n.nextTask, "idle", [], .compute .idle⟩])) := by
  have hrejection : (n.under x).rejection .idle .cpu = none := if_pos hidle
  have hknows : (n.under x).knows (.submit .idle) = true := rfl
  have hsubmit : (n.under x).submit .idle = (({ n with nextTask := n.nextTask + 1 } : Node α).under
      (x.push [.submit ⟨n.nextTask, "idle", [], .compute .idle⟩]), .ok ()) := by
    unfold submit submitOn
    rw [hrejection]
    show (((n.under x).enqueue "idle" [] (.compute .idle)).1,
      ((n.under x).enqueue "idle" [] (.compute .idle)).2.map _) = _
    rw [enqueue_under hx]
    rfl
  rw [under_enqueue]
  unfold act call
  dsimp only
  rw [if_pos hknows, hsubmit]

/-- A rank gives a tensor up. -/
theorem Doubled.drop {i : Nat} {t : Tensor} (h : n.Doubled tiles d x) (ht : n.Tended first d s)
    (ht' : (n.dropTensor t).Tended first (d.drop n i t) s) (hplaced : t.Placed first n.handles.length) :
    ∃ y : Guise α, (n.under x).act net (.call (.submit .idle)) = some (net, (n.dropTensor t).under y) ∧
      (n.dropTensor t).Doubled tiles (d.drop n i t) y := by
  have hn : n.scheduler.isSome := ht.kept.scheduler ▸ rfl
  have hx : x.scheduler.isSome := h.isSome.trans hn
  obtain ⟨tasks', habreast, hlight, hlt⟩ := h.abreast hn
  rw [hplaced.dropTensor] at ht' ⊢
  have hretired : (d.drop n i t).retired = d.retired ++ [n.nextTask] := List.map_append
  have hpending : ∀ s, n.scheduler = some s → s.pending.find? n.nextTask = none := by
    intro s' hs'
    obtain rfl : s = s' := Option.some.inj (ht.kept.scheduler.symm.trans hs')
    refine Option.eq_none_iff_forall_ne_some.mpr fun u hu => ?_
    obtain ⟨hid, v, hv, hor⟩ := ht.kept.fits.kept _ _ hu
    have hlt := ht.id_lt (List.mem_append_left _ hv)
    rcases hor with rfl | ⟨-, rfl⟩
    · exact absurd hid (Nat.ne_of_lt hlt)
    · exact absurd hid (Nat.ne_of_lt hlt)
  have hkeys : n.nextTask ∉ n.accessors.keys := by
    intro hin
    obtain ⟨a, ha⟩ := Option.isSome_iff_exists.mp (Table.has_iff.mpr hin)
    obtain ⟨-, v, hv, hid, -⟩ := ht.kept.accessors _ _ ha
    exact absurd hid (Nat.ne_of_lt (ht.id_lt hv))
  have hwide := habreast.widen hpending hkeys
  rw [← hretired] at hwide
  have hcalls := calls_retire n t.handles t.tags
  have hin : n.nextTask ∈ (d.drop n i t).retired := hretired ▸ List.mem_append_right _ List.mem_cons_self
  have hevents : (n.retire t.handles t.tags).events = n.events ++ [_] := enqueue_events hn
  refine ⟨_, act_submit_idle hx (h.codelets ▸ List.mem_cons_self) _ _ _, ?_, ?_, ?_,
    fun _ => ⟨tasks', ⟨?_, ?_, ht'.notMem_keys⟩, ?_, ?_⟩⟩
  · rw [Node.retire, enqueue_handles]
    exact h.rest
  · rw [hcalls.codelets]
    exact h.codelets
  · rw [hcalls.scheduler]
    exact h.isSome
  · rw [hcalls.scheduler]
    exact hwide.schedulers
  · rw [hevents, seen_append, seen_cons_of_hidden (e := .submit _) (decide_eq_true hin), ← hwide.events]
    show seen _ (x.events ++ [_]) = _
    rw [seen_append, seen_cons_of_hidden (e := .submit _) (decide_eq_true hin)]
  · refine hlight.push hlt rfl (fun j hj => ?_) fun _ => ⟨rfl, rfl⟩
    rw [hretired] at hj
    exact (List.mem_append.mp hj).imp_right List.mem_singleton.mp
  · rw [Guise.agenda_push, Node.retire, enqueue_nextTask]
    intro z hz
    rcases List.mem_append.mp hz with hz | hz
    · exact Nat.lt_succ_of_lt (hlt z hz)
    · obtain rfl := List.mem_singleton.mp hz
      exact Nat.lt_succ_self _

omit [Scalar α] in
/-- A rank makes a tensor, whose buffers its double has already. -/
theorem Doubled.make {t : Tensor} {tiling : Tiling} {owners : List Rank} {next stop : Tag}
    {specs : List (Tiling × List Rank)} (h : n.Doubled tiles d x) (hstocked : n.Stocked first d)
    (hd : d'.drops = d.drops) (hr : d'.record = d.record)
    (hspecs : d.made ++ [(tiling, owners)] <+: specs)
    (htiles : Tensor.designs first specs = .ok (tiles, stop))
    (ok : n.makeTensor tiling owners d.next = .ok (n', t, next)) :
    ∃ y : Guise α, n.under x = n'.under y ∧ n'.Doubled tiles d' y := by
  obtain ⟨new, hdesign, -, -, -, rfl⟩ := makeTensor_eq_ok ok
  obtain ⟨before, hlen, -, hdesigns⟩ := hstocked.exists_designs hdesign
  obtain ⟨rest, rfl⟩ := Tensor.designs_isPrefix hspecs htiles hdesigns
  have hretired : d'.retired = d.retired := congrArg (List.map Prod.fst) hd
  have hold : (before ++ new ++ rest).drop n.handles.length = new ++ rest := by
    rw [← hlen, List.append_assoc, List.drop_left]
  have hnew : (before ++ new ++ rest).drop
      (n.handles ++ new.map Tensor.Blueprint.handle : List (Handle α)).length = rest := by
    rw [List.length_append, List.length_map, ← hlen, ← List.length_append, List.drop_left]
  refine ⟨{ x with rest := rest.map Tensor.Blueprint.handle }, ?_, ⟨?_, h.codelets, h.isSome,
    fun halive => ?_⟩⟩
  · unfold under
    dsimp only
    rw [h.rest, hold, List.map_append, List.append_assoc]
  · exact congrArg (List.map Tensor.Blueprint.handle) hnew.symm
  · obtain ⟨tasks', habreast, hlight, hlt⟩ := h.abreast halive
    refine ⟨tasks', ?_, ?_, hlt⟩
    · rw [hretired, hr]
      exact ⟨habreast.schedulers, habreast.events, habreast.keys⟩
    · rw [hretired]
      exact ⟨hlight.uses, hlight.jobs, hlight.sorted⟩

/-! ### Barriers -/

omit [Scalar α] in
/-- What a rank does that its double does not see. -/
theorem Doubled.of_same (h : n.Doubled tiles d x) (hunder : n.under x = n'.under x)
    (hcodelets : n'.codelets = n.codelets) (hs : n'.scheduler = n.scheduler)
    (hseen : n.scheduler.isSome → seen d.retired n'.events = seen d.retired n.events) :
    n.under x = n'.under x ∧ n'.Doubled tiles d x := by
  have hlen : n'.handles.length = n.handles.length := by
    have := congrArg (fun m : Node α => m.handles.length) hunder
    simpa [under] using this.symm
  have hkeys : n'.accessors = n.accessors :=
    (congrArg (fun m : Node α => m.accessors) hunder).symm
  have hnext : n'.nextTask = n.nextTask := (congrArg (fun m : Node α => m.nextTask) hunder).symm
  refine ⟨hunder, hlen ▸ h.rest, hcodelets ▸ h.codelets, hs ▸ h.isSome, fun halive => ?_⟩
  rw [hs] at halive
  obtain ⟨tasks', habreast, hlight, hlt⟩ := h.abreast halive
  exact ⟨tasks', ⟨hs ▸ habreast.schedulers, habreast.events.trans (hseen halive).symm,
    hkeys ▸ habreast.keys⟩, hlight, hnext ▸ hlt⟩

omit [Scalar α] in
theorem Doubled.wait (h : n.Doubled tiles d x) :
    n.under x = n.wait.1.under x ∧ n.wait.1.Doubled tiles d x := by
  by_cases halive : n.scheduler.isSome
  · have heq := wait_eq halive
    refine h.of_same ?_ ?_ ?_ fun _ => ?_
    · rw [heq, under_post]
      rfl
    · rw [heq, post_codelets]
    · rw [heq, post_scheduler]
    · have hevents : n.wait.1.events = n.events ++ [.wait n.nextBarrier] := by
        rw [heq]
        exact post_events { n with nextBarrier := _, barriers := _ } _ halive
      rw [hevents, seen_append, seen_cons_of_hidden rfl]
      exact List.append_nil _
  · have hcalls := calls_wait n
    refine h.of_same ?_ hcalls.codelets hcalls.scheduler fun hs => absurd hs halive
    unfold Node.wait
    rw [if_neg halive]

omit [Scalar α] in
theorem Doubled.leave (h : n.Doubled tiles d x) (b : BarrierId) :
    n.under x = (n.leave b).under x ∧ (n.leave b).Doubled tiles d x :=
  h.of_same rfl rfl rfl fun _ => rfl

/-! ### Steps -/

theorem takes_cases (h : takeEvent net n = some (net', n')) :
    ∃ s e events, n.scheduler = some s ∧ n.events = e :: events := by
  cases takes_of_takeEvent h with
  | faults s e events f scheduler queue react => exact ⟨s, e, events, scheduler, queue⟩
  | reacts s e events p scheduler queue react => exact ⟨s, e, events, scheduler, queue⟩

/-- A rank and its double queue and receive the same. -/
theorem mail_under {a : Act α} (ha : a ≠ .take) (hx : x.scheduler.isSome = n.scheduler.isSome)
    (hb : ∀ h t, a = .call (.transfer h t) → h < n.handles.length) {m' : Mail}
    (hasked : m'.asked = m.asked) (htaken : m'.taken = m.taken) :
    (a.mail net (n.under x) m').asked = (a.mail net n m).asked ∧
      (a.mail net (n.under x) m').taken = (a.mail net n m).taken := by
  cases a with
  | call c =>
    cases c with
    | transfer h t =>
      obtain ⟨⟨new, -, hsame⟩, -⟩ := mirrors_transfer hx (hb h t rfl) t
      unfold Act.mail
      dsimp only
      rw [hsame]
      show (if n.rank = t ∧ (n.transfer h t).1.nextTask ≠ n.nextTask then _ else _ : Mail).asked = _ ∧
        (if n.rank = t ∧ (n.transfer h t).1.nextTask ≠ n.nextTask then _ else _ : Mail).taken = _
      split
      · exact ⟨congrArg (· ++ _) hasked, htaken⟩
      · exact ⟨hasked, htaken⟩
    | submit op => exact ⟨hasked, htaken⟩
    | flush h => exact ⟨hasked, htaken⟩
  | take => exact absurd rfl ha
  | arrive i =>
    unfold Act.mail
    dsimp only
    rw [show (n.under x).arrivals = n.arrivals from rfl]
    cases n.arrivals[i]? with
    | none => exact ⟨hasked, htaken⟩
    | some c =>
      dsimp only
      split
      · exact ⟨hasked, congrArg (· ++ _) htaken⟩
      · exact ⟨hasked, htaken⟩
  | _ => exact ⟨hasked, htaken⟩

theorem Tends.alive (h : n.Tends net d p net' n' d') (halive : n'.scheduler.isSome) :
    n.scheduler.isSome := by
  cases h with
  | act a known step => exact alive_of_undergo (undergo_of_act step) halive
  | make tiling owners ok =>
    obtain ⟨new, -, -, -, -, rfl⟩ := makeTensor_eq_ok ok
    exact halive
  | drop i held runs => exact runs
  | wait => exact (calls_wait n).scheduler ▸ halive
  | leave b => exact halive

theorem Tends.rank (h : n.Tends net d p net' n' d') : n'.rank = n.rank := by
  cases h with
  | act a known step => exact rank_of_setting (setting_of_undergo (undergo_of_act step))
  | make tiling owners ok =>
    obtain ⟨new, -, -, -, -, rfl⟩ := makeTensor_eq_ok ok
    rfl
  | @drop t i held runs =>
    unfold dropTensor
    split
    · exact rank_of_setting (calls_retire n _ _).setting
    · rfl
  | wait => exact rank_of_setting (calls_wait n).setting
  | leave b => rfl

/-- A diary grows. -/
theorem Tends.isPrefix (h : n.Tends net d p net' n' d') :
    d.made <+: d'.made ∧ d.milestones <+: d'.milestones := by
  cases h with
  | act a known step => exact ⟨List.prefix_refl _, List.prefix_append _ _⟩
  | make tiling owners ok => exact ⟨List.prefix_append _ _, List.prefix_refl _⟩
  | drop i held runs => exact ⟨List.prefix_refl _, List.prefix_append _ _⟩
  | wait => exact ⟨List.prefix_refl _, List.prefix_refl _⟩
  | leave b => exact ⟨List.prefix_refl _, List.prefix_refl _⟩

/-- Whatever a rank does, its double comes to the same. -/
theorem Doubled.tend {specs : List (Tiling × List Rank)} {stop : Tag} (h : n.Doubled tiles d x)
    (hstocked : n.Stocked first d) (ht : ∀ s, n.scheduler = some s → n.Tended first d s)
    (hmade : d'.made <+: specs) (htiles : Tensor.designs first specs = .ok (tiles, stop))
    (hcalm : ∀ s e events q, n.scheduler = some s → n.events = e :: events → s.react e = .ok q →
      d.Calm n.rank q.2.started net)
    (step : n.Tends net d p net' n' d') (hasked : m.asked = d.mail.asked)
    (htaken : m.taken = d.mail.taken) :
    ∃ (y : Guise α) (m' : Mail), (n.under x).Reaches net d.hist m (n'.under y) net' d'.hist m' ∧
      m'.asked = d'.mail.asked ∧ m'.taken = d'.mail.taken ∧ n'.Doubled tiles d' y := by
  have ht' : ∀ s', n'.scheduler = some s' → n'.Tended first d' s' := fun s' hs' => by
    obtain ⟨s, hs⟩ := Option.isSome_iff_exists.mp (step.alive (hs' ▸ rfl))
    exact (ht s hs).tend hstocked step hs'
  -- a step that the double makes none for
  have hstay : ∀ y : Guise α, n.under x = n'.under y → n'.Doubled tiles d' y → net' = net →
      d'.hist = d.hist → d'.mail = d.mail → ∃ (y : Guise α) (m' : Mail),
        (n.under x).Reaches net d.hist m (n'.under y) net' d'.hist m' ∧
        m'.asked = d'.mail.asked ∧ m'.taken = d'.mail.taken ∧ n'.Doubled tiles d' y := by
    intro y hy hdouble hnet hhist hmail
    refine ⟨y, m, ?_, hmail ▸ hasked, hmail ▸ htaken, hdouble⟩
    rw [hy, hnet, hhist]
    exact .refl
  cases step with
  | act a known step =>
    by_cases ha : a = .take
    · subst ha
      obtain ⟨s, e, events, hs, he⟩ := takes_cases step
      obtain ⟨q, hok, -⟩ := (ht s hs).kept.react he
      obtain ⟨hasked', htaken'⟩ := mail_take net n d.mail
      obtain ⟨y, m', hway, hm₁, hm₂, hdouble⟩ := h.take hstocked (ht s hs) ht' he hok
        (hcalm s e events q hs he hok) step d.hist m
      exact ⟨y, m', hway, hm₁.trans (hasked.trans hasked'.symm), hm₂.trans (htaken.trans htaken'.symm),
        hdouble⟩
    · obtain ⟨y, hy, hdouble⟩ := h.act hstocked.licit ht ht' ha step
      have hb : ∀ h t, a = .call (.transfer h t) → h < n.handles.length := by
        rintro b t rfl
        exact of_decide_eq_true (call_of_act step).1
      obtain ⟨hm₁, hm₂⟩ := mail_under ha h.isSome hb hasked htaken
      have hrecord : a.record (n.under x) d.hist = a.record n d.hist := by
        cases a with
        | call c => cases c <;> rfl
        | _ => rfl
      have hway : (n.under x).Reaches net d.hist m (n'.under y) net' (a.record (n.under x) d.hist)
          (a.mail net (n.under x) m) := Reaches.refl.snoc a hy
      rw [hrecord] at hway
      exact ⟨y, _, hway, hm₁, hm₂, hdouble⟩
  | @make n' t next tiling owners ok =>
    let e : Diary α := { d with made := d.made ++ [(tiling, owners)], next, held := d.held ++ [t] }
    obtain ⟨y, hy, hdouble⟩ := h.make hstocked (show e.drops = d.drops from rfl) rfl hmade htiles ok
    exact hstay y hy hdouble rfl rfl rfl
  | @drop t i held runs =>
    obtain ⟨s, hs⟩ := Option.isSome_iff_exists.mp runs
    have hplaced := hstocked.placed_of_held (List.mem_of_getElem? held)
    have hcalls := calls_retire n t.handles t.tags
    rw [← hplaced.dropTensor] at hcalls
    obtain ⟨y, hy, hdouble⟩ := h.drop (ht s hs) (ht' s (hcalls.scheduler.trans hs)) hplaced
    exact ⟨y, _, Reaches.refl.snoc (.call (.submit .idle)) hy, hasked, htaken, hdouble⟩
  | wait =>
    obtain ⟨hy, hdouble⟩ := h.wait
    exact hstay x hy hdouble rfl rfl rfl
  | leave b =>
    obtain ⟨hy, hdouble⟩ := h.leave b
    exact hstay x hy hdouble rfl rfl rfl

end Node

end TiledTensor
