import TiledTensor.Proofs.Openings
import TiledTensor.Proofs.OwnSteps
import TiledTensor.Proofs.Unfailing

/-!
# Openings stay in their places

Whatever a rank does, what is being opened on it stays where it was: the computation stays ready until
it has run, the answer of a receive is not taken back, and an accessor is not given up while its buffer
is being opened (`Station.Steady.move`).  On the other ranks nothing changes but the messages.
-/

namespace TiledTensor

variable {α : Type}

/-- Other entries stay when one is erased. -/
theorem mem_eraseIdx_of_ne {β : Type} {l : List β} {i : Nat} {x y : β} (hx : x ∈ l)
    (hy : l[i]? = some y) (hne : x ≠ y) : x ∈ l.eraseIdx i := by
  obtain ⟨j, hj⟩ := List.getElem?_of_mem hx
  refine List.mem_eraseIdx_iff_getElem?.mpr ⟨j, ?_, hj⟩
  rintro rfl
  exact hne (Option.some.inj (hj.symm.trans hy))

/-! ## What stays on a rank -/

namespace Node

variable [Scalar α]

variable {n n' n₀ : Node α} {net net' : Cluster} {t : Task α} {hist : List (Entry α)}
  {V : Nat → Option (List α)} {log todo : List (Task α)} {done : TaskId → Prop}

/-- What is started comes to the computations, receives and accessors that there are. -/
theorem Starts.keeps (hs : n.Starts net t net' n') (halive : n'.scheduler.isSome) :
    (∀ w ∈ n.work, w ∈ n'.work) ∧ (∀ a ∈ n.arrivals, a ∈ n'.arrivals) ∧
      ∀ k a, n.held k = some a → n'.held k = some a := by
  have hpost : ∀ (m : Node α) e, m.work = n.work → m.arrivals = n.arrivals →
      m.accessors = n.accessors → (∀ w ∈ n.work, w ∈ (m.post e).work) ∧
        (∀ a ∈ n.arrivals, a ∈ (m.post e).arrivals) ∧
          ∀ k a, n.held k = some a → (m.post e).held k = some a := by
    intro m e hw ha hc
    unfold held
    rw [post_work, post_arrivals, post_accessors, hw, ha, hc]
    exact ⟨fun _ h => h, fun _ h => h, fun _ _ h => h⟩
  cases hs with
  | computes op job =>
    exact ⟨fun _ => List.mem_append_left _, fun _ h => h, fun _ _ h => h⟩
  | receives h src tag job =>
    exact ⟨fun _ h => h, fun _ => List.mem_append_left _, fun _ _ h => h⟩
  | sends h dst tag block net' job opened sent =>
    have hm := onlyMemory_openHandle n h
    exact hpost _ _ hm.work hm.arrivals hm.accessors
  | refused h dst tag block e job opened unsent =>
    have hm := onlyMemory_openHandle n h
    exact hpost _ _ hm.work hm.arrivals hm.accessors
  | unopened h dst tag f job unopened =>
    rw [stop_scheduler] at halive
    cases halive
  | evicts h e job freed => exact hpost _ _ rfl rfl rfl
  | unfreed h f job unfreed =>
    rw [stop_scheduler] at halive
    cases halive
  | grants job present =>
    refine ⟨fun _ h => h, fun _ h => h, ?_⟩
    intro k a ha
    obtain ⟨hfind, hgranted⟩ := held_eq_some_iff.mp ha
    refine held_eq_some_iff.mpr ⟨?_, hgranted⟩
    dsimp only
    rw [Table.find?_adjust, hfind]
    split
    · obtain ⟨h, c, p⟩ := a
      obtain rfl : p = .granted := hgranted
      rfl
    · rfl
  | vacant job gone => exact hpost _ _ rfl rfl rfl
  | retires tags job => exact hpost _ _ rfl rfl rfl
  | withdrawn job => exact hpost _ _ rfl rfl rfl

/-- A call, or what the holder of an accessor does, leaves computations and receives alone, and all
accessors but one that is given up. -/
theorem Ledger.rest_of_act (hl : n.Ledger n₀ hist V log done todo) {a : Act α}
    (h : n.Acts net a net' n') (htake : a ≠ .take) (hwork : ∀ i, a ≠ .work i)
    (harrive : ∀ i, a ≠ .arrive i) : n'.work = n.work ∧ n'.arrivals = n.arrivals ∧
      ∀ k b, n.held k = some b → a ≠ .release k → n'.held k = some b := by
  have hqueue : ∀ {m : Node α} {name : String} {uses : List (HandleId × Access)} {job : Job α}
      {id : TaskId}, n.OnlyBuffers m → m.enqueue name uses job = (n', .ok id) →
        n'.work = n.work ∧ n'.arrivals = n.arrivals ∧
          ∀ k b, n.held k = some b → a ≠ .release k → n'.held k = some b := by
    intro m name uses job id hm hok
    obtain ⟨-, -, rfl⟩ := enqueue_eq_ok hok
    refine ⟨hm.work, hm.arrivals, fun k b hb _ => ?_⟩
    unfold held at hb ⊢
    dsimp only
    rwa [hm.accessors]
  have hsame : n.OnlyBuffers n' → n'.work = n.work ∧ n'.arrivals = n.arrivals ∧
      ∀ k b, n.held k = some b → a ≠ .release k → n'.held k = some b := by
    intro hm
    refine ⟨hm.work, hm.arrivals, fun k b hb _ => ?_⟩
    unfold held at hb ⊢
    rwa [hm.accessors]
  cases h with
  | submit bounds ok =>
    obtain ⟨id, hok⟩ := submit_eq_ok ok
    exact hqueue (onlyBuffers_markWritten n _) hok
  | transfer bound ok =>
    obtain ⟨-, ⟨-, rfl, -⟩ | ⟨-, tag, name, id, m, -, hm, -, -, hok⟩⟩ :=
      transfer_eq_ok hl.marks (hl.marks.length ▸ bound) ok
    · exact hsame (.refl _)
    · exact hqueue hm hok
  | flush bound ok =>
    obtain ⟨-, hm, -, -⟩ | ⟨-, id, m, hm, -, -, hok⟩ :=
      flush_eq_ok hl.marks (hl.marks.length ▸ bound) ok
    · exact hsame hm
    · exact hqueue hm hok
  | @acquire h c n' id bound ok =>
    obtain ⟨-, -, -, -, rfl⟩ := acquire_eq_ok ok
    have hm := onlyBuffers_markWritten n [(h, c)]
    refine ⟨hm.work, hm.arrivals, fun k b hb _ => ?_⟩
    obtain ⟨hfind, hgranted⟩ := held_eq_some_iff.mp hb
    refine held_eq_some_iff.mpr ⟨?_, hgranted⟩
    -- the new accessor has a number of its own
    have hne : k ≠ n.nextTask := by
      have hlt := hl.account.orderly.sound.lt_of_active (Or.inr (Or.inr ⟨b, hfind, hgranted⟩))
      rw [hl.account.orderly.sound.next]
      exact Nat.ne_of_lt hlt
    exact (Table.find?_put_of_ne _ _ hne).trans hfind
  | @release id c found =>
    unfold Node.release held
    rw [post_work, post_arrivals, post_accessors]
    refine ⟨rfl, rfl, fun k b hb hne => ?_⟩
    have hk : k ≠ id := fun heq => hne (heq ▸ rfl)
    rw [Table.find?_erase_of_ne _ hk]
    exact hb
  | look held => exact hsame (onlyMemory_openHandle n _).toOnlyBuffers
  | @put id c block n' held ok =>
    obtain ⟨t, ht, -, huses⟩ :=
      hl.account.orderly.sound.accessors id c (held_eq_some_iff.mp held).1
    have hb := hl.account.faithful.bounds t (List.mem_of_getElem? ht) (c.handle, c.access)
      (by simp [huses])
    exact hsame (Account.enterWrite_eq_some hb ok).1.toOnlyBuffers
  | take ok => exact absurd rfl htake
  | work ok => exact absurd rfl (hwork _)
  | arrive ok => exact absurd rfl (harrive _)

end Node

/-! ## What stays of the openings -/

namespace Station

variable {net net' : Cluster} {s s' : Station α} {gives : Bool} {mv : Motion α} {n₀ : Node α}
  {hist : List (Entry α)} {V : Nat → Option (List α)} {log : List (Task α)} {done : TaskId → Prop}

/-- The receives of the rank have numbers of their own, and those that are over stay so when another
one is forgotten. -/
structure Ticketed (net : Cluster) (s : Station α) : Prop where
  issued : ∀ a ∈ s.node.arrivals, a.ticket < net.nextTicket
  distinct : ∀ a ∈ s.node.arrivals, ∀ b ∈ s.node.arrivals, a.ticket = b.ticket → a = b

namespace Steady

/-- Other openings than the one that is finished are for other tasks. -/
theorem id_ne_of_mem_eraseIdx (hst : s.Steady net) {i : Nat} {o o' : Opening}
    (ho : s.openings[i]? = some o) (ho' : o' ∈ s.openings.eraseIdx i) : o'.id ≠ o.id :=
  ((Node.exists_mem_eraseIdx_iff hst.distinct ho o'.id).mp ⟨o', ho', rfl⟩).2

/-- On another rank nothing changes but the messages. -/
theorem mono (hst : s.Steady net)
    (hnet : ∀ a ∈ s.node.arrivals, net.Answered a.ticket → net'.Answered a.ticket) :
    s.Steady net' := by
  refine ⟨fun o ho => ?_, hst.distinct, hst.going⟩
  exact (hst.placed o ho).mono (fun _ hw _ => hw) (fun t rest _ hn _ => ⟨rest, hn⟩)
    (fun a ha _ => ⟨ha, hnet a ha⟩) fun _ hv => hv

/-- Some openings are left, and each of them is still in its place. -/
theorem sublist {openings : List Opening} (hst : s.Steady net) (hopen : s'.openings = openings)
    (hsub : openings.Sublist s.openings) (hplaced : ∀ o ∈ openings, s'.Placed net' o) :
    s'.Steady net' := by
  subst hopen
  exact ⟨hplaced, hst.distinct.sublist (hsub.map _), fun o ho => hst.going o (hsub.subset ho)⟩

variable [Scalar α]

/-- The program does something. -/
theorem act (hst : s.Steady net) (hl : s.node.Ledger n₀ hist V log done s.starting) {a : Act α}
    {n' : Node α} (hallow : s.allows a = true) (hact : s.node.act net a = some (net', n')) :
    Steady net' { s with node := n', openings := left s.openings a } := by
  have hacts := Node.acts_of_act hact
  have htake : a ≠ .take := by
    rintro rfl
    cases hallow
  have hwork : ∀ i, a ≠ .work i := by
    rintro i rfl
    cases hallow
  have harrive : ∀ i, a ≠ .arrive i := by
    rintro i rfl
    cases hallow
  obtain ⟨rfl, -⟩ := hl.act hacts htake harrive
  obtain ⟨hw, ha, hv⟩ := hl.rest_of_act hacts htake hwork harrive
  have hmono : ∀ o ∈ s.openings, a ≠ .release o.id →
      Placed net' { s with node := n', openings := left s.openings a } o := by
    intro o ho hne
    refine (hst.placed o ho).mono (fun w hm _ => hw.symm ▸ hm) (fun t rest _ hn _ => ⟨rest, hn⟩)
      (fun b hm _ => ⟨ha.symm ▸ hm, fun h => h⟩) fun b hb => hv _ b hb hne
  refine hst.sublist rfl ?_ ?_
  · cases a with
    | release id => exact List.filter_sublist
    | _ => exact .refl _
  · intro o ho
    cases a with
    | release id =>
      obtain ⟨hmem, hid⟩ := List.mem_filter.mp ho
      refine hmono o hmem ?_
      intro heq
      exact of_decide_eq_true hid (Act.release.inj heq).symm
    | _ => exact hmono o ho (by simp)

/-- A task that opens no buffer is started, or one whose buffers were the last to be opened by the
scheduler. -/
theorem start (hst : s.Steady net) (ht : s.Ticketed net) {t : Task α} {rest : List (Task α)}
    {openings : List Opening}
    (halive : (Node.start net s.node t).2.scheduler.isSome) (hsub : openings.Sublist s.openings)
    (hnone : ∀ o ∈ openings, o.opener ≠ .scheduler) :
    Steady (Node.start net s.node t).1
      ({ s with openings }.resume (Node.start net s.node t).2 rest) := by
  obtain ⟨hw, ha, hv⟩ := (Node.starts_of_start net s.node t).keeps halive
  unfold resume
  rw [if_pos halive]
  refine hst.sublist rfl hsub ?_
  intro o ho
  refine (hst.placed o (hsub.subset ho)).mono (fun w hm _ => hw w hm) ?_
    (fun a hm _ => ⟨ha a hm, fun h => h.start (ht.issued a hm) s.node t⟩) fun a hb => hv _ a hb
  intro _ _ hopener _ _
  exact absurd hopener (hnone o ho)

/-- Something is begun to be opened. -/
theorem begin (hst : s.Steady net) {c : Opener} {i : Nat} {o : Opening}
    (hopens : s.opening net c i = some o) (hnew : o.id ∉ s.openings.map (·.id)) :
    Steady net { s with openings := s.openings ++ [o] } := by
  have hsame : ∀ {o'}, s.Placed net o' → Placed net { s with openings := s.openings ++ [o] } o' :=
    fun hp => hp.mono (fun _ hw _ => hw) (fun t rest _ hn _ => ⟨rest, hn⟩)
      (fun _ ha _ => ⟨ha, fun h => h⟩) fun _ hv => hv
  refine ⟨?_, ?_, ?_⟩
  · intro o' ho'
    rcases List.mem_append.mp ho' with ho' | ho'
    · exact hsame (hst.placed o' ho')
    · rw [List.mem_singleton.mp ho']
      exact hsame (placed_of_opening hopens)
  · rw [List.map_append, List.nodup_append]
    refine ⟨hst.distinct, by simp, ?_⟩
    rintro k hk k' hk' rfl
    rw [List.map_singleton, List.mem_singleton] at hk'
    exact hnew (hk' ▸ hk)
  · intro o' ho'
    rcases List.mem_append.mp ho' with ho' | ho'
    · exact hst.going o' ho'
    · rw [List.mem_singleton.mp ho']
      rcases (begins_of_opening hopens).2 with hphase | ⟨hphase, -⟩ <;> simp [hphase]

/-- One more lock is taken. -/
theorem lock (hst : s.Steady net) {i : Nat} {o : Opening} (hfound : s.openings[i]? = some o)
    (hgoing : (o.step s.node).2.phase ≠ .failed) :
    Steady net
      { s with node := (o.step s.node).1, openings := s.openings.set i (o.step s.node).2 } := by
  have hm : s.node.OnlyMemory (o.step s.node).1 := by
    rcases (o.steps_of_step s.node).node with heq | ⟨h, a, -, heq⟩
    · rw [heq]
      exact .refl _
    · rw [heq]
      exact Node.onlyMemory_openHandle _ h
  have hsame : ∀ {o'}, s.Placed net o' → Placed net
      { s with node := (o.step s.node).1, openings := s.openings.set i (o.step s.node).2 } o' := by
    intro o' hp
    refine hp.mono (fun w hw _ => hm.work.symm ▸ hw) (fun t rest _ hn _ => ⟨rest, hn⟩)
      (fun a ha _ => ⟨hm.arrivals.symm ▸ ha, fun h => h⟩) fun a hv => ?_
    unfold Node.held at hv ⊢
    dsimp only
    rwa [hm.accessors]
  have hmem : ∀ o' ∈ s.openings.set i (o.step s.node).2,
      o' ∈ s.openings ∨ o' = (o.step s.node).2 := fun o' ho' => List.mem_or_eq_of_mem_set ho'
  refine ⟨?_, ?_, ?_⟩
  · intro o' ho'
    rcases hmem o' ho' with ho' | rfl
    · exact hsame (hst.placed o' ho')
    · exact hsame ((hst.placed o (List.mem_of_getElem? hfound)).congr (o.step_opener s.node)
        (o.step_id s.node) (o.step_operands s.node))
  · have hids : (s.openings.set i (o.step s.node).2).map (·.id) = s.openings.map (·.id) := by
      obtain ⟨hi, rfl⟩ := List.getElem?_eq_some_iff.mp hfound
      have hi' : i < (s.openings.map (·.id)).length := by
        rwa [List.length_map]
      have hget : (s.openings.map (·.id))[i] = s.openings[i].id := List.getElem_map _
      rw [List.map_set, Opening.step_id, ← hget, List.set_getElem_self]
    exact hids ▸ hst.distinct
  · intro o' ho'
    rcases hmem o' ho' with ho' | rfl
    · exact hst.going o' ho'
    · exact hgoing

/-- A computation has run. -/
theorem run (hst : s.Steady net) {i j : Nat} {o : Opening} {w : Work α} {n' : Node α}
    (hfound : s.openings[i]? = some o) (hready : s.node.work[j]? = some w) (hid : w.id = o.id)
    (hrun : s.node.runWork j = some n') :
    Steady net { s with node := n', openings := s.openings.eraseIdx i } := by
  obtain ⟨w', hw', rfl⟩ := Node.runWork_eq_some_iff.mp hrun
  obtain rfl : w = w' := Option.some.inj (hready.symm.trans hw')
  have hm := Node.onlyMemory_run ({ s.node with work := s.node.work.eraseIdx j } : Node α) w.op
  refine hst.sublist rfl (List.eraseIdx_sublist _ _) ?_
  intro o' ho'
  have hne := hst.id_ne_of_mem_eraseIdx hfound ho'
  refine (hst.placed o' (List.mem_of_mem_eraseIdx ho')).mono ?_
    (fun t rest _ hn _ => ⟨rest, hn⟩) ?_ ?_
  · intro v hv hvid
    rw [Node.post_work, hm.work]
    refine mem_eraseIdx_of_ne hv hready ?_
    rintro rfl
    exact hne (hid.symm.trans hvid).symm
  · intro a ha _
    rw [Node.post_arrivals, hm.arrivals]
    exact ⟨ha, fun h => h⟩
  · intro a hv
    unfold Node.held at hv ⊢
    rwa [Node.post_accessors, hm.accessors]

/-- A receive has ended. -/
theorem receive (hst : s.Steady net) (ht : s.Ticketed net) {i j : Nat} {o : Opening} {a : Arrival}
    {n' : Node α} (hfound : s.openings[i]? = some o) (hready : s.node.arrivals[j]? = some a)
    (hid : a.id = o.id) (htake : Node.takeArrival net s.node j = some (net', n')) :
    Steady net' { s with node := n', openings := s.openings.eraseIdx i } := by
  obtain ⟨a', c, ha', -, hanswered, rfl, rfl⟩ := Node.takeArrival_eq_some_iff.mp htake
  obtain rfl : a = a' := Option.some.inj (hready.symm.trans ha')
  have heq := (Node.finishes_of_finish
    ({ s.node with arrivals := s.node.arrivals.eraseIdx j } : Node α) a hanswered).eq
  refine hst.sublist rfl (List.eraseIdx_sublist _ _) ?_
  intro o' ho'
  have hne := hst.id_ne_of_mem_eraseIdx hfound ho'
  refine (hst.placed o' (List.mem_of_mem_eraseIdx ho')).mono ?_
    (fun t rest _ hn _ => ⟨rest, hn⟩) ?_ ?_
  · intro v hv _
    rw [heq]
    exact hv
  · intro b hb hbid
    have hba : b ≠ a := by
      rintro rfl
      exact hne (hid.symm.trans hbid).symm
    rw [heq]
    refine ⟨mem_eraseIdx_of_ne hb hready hba, fun h => h.forget ?_⟩
    exact fun hticket => hba (ht.distinct b hb a (List.mem_of_getElem? hready) hticket)
  · intro b hv
    rw [heq]
    exact hv

omit [Scalar α] in
/-- The scheduler has taken an event and is to start some tasks. -/
theorem take (hst : s.Steady net) (hidle : s.starting = []) (events : List (Event α))
    (p : Scheduler α × Reaction α) : Steady net { s with
      node := ({ s.node with events, scheduler := some p.1 } : Node α).pass p.2.passed
      starting := p.2.started } := by
  refine hst.sublist rfl (.refl _) ?_
  intro o ho
  refine (hst.placed o ho).mono (fun _ hw _ => hw) ?_ (fun _ ha _ => ⟨ha, fun h => h⟩)
    fun _ hv => hv
  intro t rest _ hnext _
  rw [hidle] at hnext
  cases hnext

omit [Scalar α] in
/-- What the scheduler opens is for the task that it starts next. -/
theorem next_of_scheduler (hst : s.Steady net) {o : Opening} (ho : o ∈ s.openings)
    (hopener : o.opener = .scheduler) : ∃ t rest, s.starting = t :: rest ∧ t.id = o.id ∧
      ((∃ h dst tag, t.job = .send h dst tag) ∨ ∃ h, t.job = .evict h) := by
  cases hst.placed o ho with
  | send opener next id job operands => exact ⟨_, _, next, id, Or.inl ⟨_, _, _, job⟩⟩
  | evict opener next id job operands => exact ⟨_, _, next, id, Or.inr ⟨_, job⟩⟩
  | worker opener mem id operands => cases opener.symm.trans hopener
  | receiver opener mem id operands answered => cases opener.symm.trans hopener
  | holder opener held operands => cases opener.symm.trans hopener

omit [Scalar α] in
/-- The scheduler has nothing open for a task that opens no buffer. -/
theorem not_scheduler_of_opening (hst : s.Steady net)
    (hopens : s.opening net .scheduler 0 = none) : ∀ o ∈ s.openings, o.opener ≠ .scheduler := by
  intro o ho hopener
  obtain ⟨⟨k, name, uses, job⟩, rest, hnext, -, hjob⟩ := hst.next_of_scheduler ho hopener
  unfold opening at hopens
  rw [hnext] at hopens
  rcases hjob with ⟨h, dst, tag, rfl⟩ | ⟨h, rfl⟩ <;> cases hopens

omit [Scalar α] in
/-- The scheduler opens buffers for one task at a time. -/
theorem not_scheduler_of_mem_eraseIdx (hst : s.Steady net) {i : Nat} {o : Opening}
    (hfound : s.openings[i]? = some o) (hopener : o.opener = .scheduler) :
    ∀ o' ∈ s.openings.eraseIdx i, o'.opener ≠ .scheduler := by
  intro o' ho' hopener'
  obtain ⟨t, rest, hnext, hid, -⟩ := hst.next_of_scheduler (List.mem_of_getElem? hfound) hopener
  obtain ⟨t', rest', hnext', hid', -⟩ :=
    hst.next_of_scheduler (List.mem_of_mem_eraseIdx ho') hopener'
  rw [hnext] at hnext'
  cases hnext'
  exact hst.id_ne_of_mem_eraseIdx hfound ho' (hid'.symm.trans hid)

end Steady

/-! ## The other ranks -/

variable [Scalar α]

/-- Whatever a rank does, the receives of the others that are over stay so. -/
theorem Goes.answered (hg : s.Goes gives net mv net' s') {t : Ticket} (ht : t < net.nextTicket)
    (hother : ∀ a ∈ s.node.arrivals, t ≠ a.ticket) (ha : net.Answered t) : net'.Answered t := by
  have hforget : ∀ {j m}, Node.takeArrival net s.node j = some (net', m) → net'.Answered t := by
    intro j m htake
    obtain ⟨a, -, haj, -, -, rfl, -⟩ := Node.takeArrival_eq_some_iff.mp htake
    exact ha.forget (hother a (List.mem_of_getElem? haj))
  cases hg with
  | @act a net' n' allowed ok =>
    cases Node.acts_of_act ok with
    | take ok => cases allowed
    | arrive ok => cases allowed
    | submit | transfer | flush | acquire | release | look | put | work => exact ha
  | start | dispatch => exact ha.start ht _ _
  | receive found opener ended place ready id ok => exact hforget ok
  | stop | take | begin | lock | run | giveUp => exact ha

end Station

end TiledTensor
