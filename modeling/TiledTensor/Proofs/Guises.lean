import TiledTensor.Proofs.Ownership

/-!
# A rank in another guise

What a rank does to its buffers, its computations and its receives does not depend on its scheduler, on
the events on their way there, on barriers, on further codelets, or on buffers that it does not name.  A
*guise* is another choice of these, and `Node.under` puts a rank under it.

Here it is shown that everything but the taking of events commutes with a guise; an event that is
posted is posted under the guise as well (`Node.act_under`).
-/

namespace TiledTensor

variable {α : Type}

/-- What a rank may have otherwise without doing anything else to its buffers. -/
structure Guise (α : Type) where
  /-- Buffers after those that the rank has. -/
  rest : List (Handle α)
  codelets : List String
  scheduler : Option (Scheduler α)
  events : List (Event α)
  barriers : Table BarrierId Barrier
  nextBarrier : BarrierId

/-- Sends the scheduler an event, if there is one to take it. -/
def Guise.post (x : Guise α) (e : Event α) : Guise α :=
  if x.scheduler.isSome then { x with events := x.events ++ [e] } else x

/-- Further events on their way. -/
def Guise.push (x : Guise α) (new : List (Event α)) : Guise α := { x with events := x.events ++ new }

/-- Keeps a failure for the next barrier. -/
def Guise.note (x : Guise α) (e : TaskError) : Guise α :=
  { x with scheduler := x.scheduler.map (·.note e) }

namespace Node

/-- The rank under a guise. -/
def under (n : Node α) (x : Guise α) : Node α :=
  { n with
    codelets := x.codelets
    handles := n.handles ++ x.rest
    scheduler := x.scheduler
    events := x.events
    barriers := x.barriers
    nextBarrier := x.nextBarrier }

variable {n n' : Node α} {x : Guise α} {h : HandleId} {net net' : Cluster}

@[simp] theorem under_rank (n : Node α) (x : Guise α) : (n.under x).rank = n.rank := rfl

@[simp] theorem under_size (n : Node α) (x : Guise α) : (n.under x).size = n.size := rfl

/-! ## Buffers -/

@[simp] theorem under_post (n : Node α) (e : Event α) (x : Guise α) :
    (n.post e).under x = n.under x := by
  unfold post
  split <;> rfl

theorem post_under (n : Node α) (e : Event α) (x : Guise α) :
    (n.under x).post e = n.under (x.post e) := by
  unfold post Guise.post
  show (if x.scheduler.isSome then _ else _) = _
  split <;> rfl

theorem handle_under (hh : h < n.handles.length) : (n.under x).handle h = n.handle h :=
  handle_append_left x.rest hh

theorem setHandle_under (hh : h < n.handles.length) (e : Handle α) :
    (n.under x).setHandle h e = (n.setHandle h e).under x := by
  unfold setHandle under
  dsimp only
  rw [List.set_append_left _ _ hh]

theorem length_setHandle (n : Node α) (h : HandleId) (e : Handle α) :
    (n.setHandle h e).handles.length = n.handles.length :=
  List.length_set ..

variable [Scalar α]

theorem openHandle_under (hh : h < n.handles.length) :
    (n.under x).openHandle h = ((n.openHandle h).1.under x, (n.openHandle h).2) := by
  unfold openHandle
  dsimp only
  rw [handle_under hh, setHandle_under hh]

omit [Scalar α] in
/-- Whatever is done to the buffers that are written is done under a guise as well. -/
theorem foldl_under (f : Handle α → Handle α) {uses : List (HandleId × Access)}
    (hb : ∀ u ∈ uses, u.1 < n.handles.length) :
    uses.foldl (fun n u => if u.2.writes then n.setHandle u.1 (f (n.handle u.1)) else n) (n.under x) =
      (uses.foldl (fun n u => if u.2.writes then n.setHandle u.1 (f (n.handle u.1)) else n) n).under
        x := by
  induction uses generalizing n with
  | nil => rfl
  | cons u uses ih =>
    have hu := hb u List.mem_cons_self
    have hrest : ∀ v ∈ uses, v.1 < n.handles.length := fun v hv => hb v (List.mem_cons_of_mem _ hv)
    rw [List.foldl_cons, List.foldl_cons]
    split
    · rw [handle_under hu, setHandle_under hu]
      exact ih fun v hv => (length_setHandle n _ _).symm ▸ hrest v hv
    · exact ih hrest

omit [Scalar α] in
theorem markWritten_under {uses : List (HandleId × Access)} (hb : ∀ u ∈ uses, u.1 < n.handles.length) :
    (n.under x).markWritten uses = (n.markWritten uses).under x :=
  foldl_under Handle.markWritten hb

theorem openAll_under {operands : List Operand}
    (hb : ∀ h a, .data h a ∈ operands → h < n.handles.length) :
    (n.under x).openAll operands = ((n.openAll operands).1.under x, (n.openAll operands).2) := by
  induction operands generalizing n with
  | nil => rfl
  | cons o operands ih =>
    have hrest : ∀ h a, .data h a ∈ operands → h < n.handles.length :=
      fun h a hmem => hb h a (List.mem_cons_of_mem _ hmem)
    cases o with
    | scratch bytes =>
      unfold openAll
      split
      · rw [ih hrest]
      · rfl
    | data h a =>
      have hh := hb h a List.mem_cons_self
      have hlen := (onlyMemory_openHandle n h).length
      unfold openAll
      rw [openHandle_under hh]
      generalize n.openHandle h = p at hlen ⊢
      obtain ⟨m, r⟩ := p
      cases r with
      | error f => rfl
      | ok block =>
        dsimp only at hlen ⊢
        rw [ih fun h' a' hmem => hlen.symm ▸ hrest h' a' hmem]
        have hlen' := (onlyMemory_openAll m operands).length
        generalize m.openAll operands = q at hlen' ⊢
        obtain ⟨m', views⟩ := q
        cases views with
        | some views => rfl
        | none =>
          dsimp only at hlen' ⊢
          have hh' : h < m'.handles.length := by
            rw [hlen', hlen]
            exact hh
          split
          · rw [handle_under hh', setHandle_under hh']
          · rfl

omit [Scalar α] in
theorem storeAll_under {operands : List Operand} {views : List (View α)}
    (hb : ∀ h a, .data h a ∈ operands → h < n.handles.length) :
    (n.under x).storeAll operands views = (n.storeAll operands views).under x := by
  induction operands generalizing n views with
  | nil => unfold storeAll; rfl
  | cons o operands ih =>
    have hrest : ∀ h a, .data h a ∈ operands → h < n.handles.length :=
      fun h a hmem => hb h a (List.mem_cons_of_mem _ hmem)
    cases views with
    | nil => cases o <;> rfl
    | cons v views =>
      cases o with
      | scratch bytes => exact ih hrest
      | data h a =>
        have hh := hb h a List.mem_cons_self
        unfold storeAll
        cases v with
        | shared block => exact ih hrest
        | scratch bytes => exact ih hrest
        | exclusive block =>
          dsimp only
          split
          · rw [handle_under hh, setHandle_under hh]
            exact ih fun h' a' hmem => (length_setHandle n _ _).symm ▸ hrest h' a' hmem
          · exact ih hrest

omit [Scalar α] in
theorem poisonAll_under {uses : List (HandleId × Access)} (hb : ∀ u ∈ uses, u.1 < n.handles.length) :
    (n.under x).poisonAll uses = (n.poisonAll uses).under x :=
  foldl_under Handle.poison hb

/-- A computation does the same under a guise. -/
theorem run_under {op : Op α} (hb : ∀ u ∈ op.uses, u.1 < n.handles.length) :
    (n.under x).run op = (n.run op).under x := by
  have hdata : ∀ h a, .data h a ∈ op.operands → h < n.handles.length :=
    fun h a hmem => hb (h, a) (Op.mem_uses_iff.mpr hmem)
  have hlen := (onlyMemory_openAll n op.operands).length
  unfold run
  rw [openAll_under hdata]
  generalize n.openAll op.operands = p at hlen ⊢
  obtain ⟨m, views⟩ := p
  cases views with
  | none => rfl
  | some views =>
    dsimp only at hlen ⊢
    cases op.codelet views with
    | ok out => exact storeAll_under fun h a hmem => hlen.symm ▸ hdata h a hmem
    | error f => exact poisonAll_under fun u hu => hlen.symm ▸ hb u hu

/-! ## Posting -/

/-- A rank under a guise has done what it has done otherwise, and has posted the same. -/
def Mirrors (x : Guise α) (n n' m' : Node α) : Prop :=
  ∃ new, n'.events = n.events ++ new ∧ m' = n'.under (x.push new)

omit [Scalar α] in
theorem Mirrors.of_events (he : n'.events = n.events) : Mirrors x n n' (n'.under x) := by
  refine ⟨[], by rw [he, List.append_nil], ?_⟩
  unfold Guise.push
  rw [List.append_nil]

omit [Scalar α] in
theorem Mirrors.congr {m m' : Node α} (hm : Mirrors x m n' m') (he : m.events = n.events) :
    Mirrors x n n' m' := by
  obtain ⟨new, hev, hm⟩ := hm
  exact ⟨new, by rw [hev, he], hm⟩

omit [Scalar α] in
theorem obstacle_under (hh : h < n.handles.length) (a : Access) :
    (n.under x).obstacle h a = n.obstacle h a := by
  unfold obstacle
  rw [handle_under hh]
  rfl

section

variable (hx : x.scheduler.isSome = n.scheduler.isSome)

include hx

omit [Scalar α] in
theorem mirrors_post (e : Event α) : Mirrors x n (n.post e) ((n.under x).post e) := by
  rw [post_under]
  unfold Guise.post Node.post
  rw [hx]
  split
  · exact ⟨[e], rfl, rfl⟩
  · exact .of_events rfl

omit [Scalar α] in
/-- A task is queued under the guise as well. -/
theorem mirrors_enqueue (name : String) (uses : List (HandleId × Access)) (job : Job α) :
    Mirrors x n (n.enqueue name uses job).1 ((n.under x).enqueue name uses job).1 ∧
      ((n.under x).enqueue name uses job).2 = (n.enqueue name uses job).2 := by
  have hp := mirrors_post (n := { n with nextTask := n.nextTask + 1 }) hx
    (.submit ⟨n.nextTask, name, uses, job⟩)
  unfold enqueue
  dsimp only
  show Mirrors x n (if n.scheduler.isSome then _ else _ : Node α × Except TaskError TaskId).1
    (if x.scheduler.isSome then _ else _ : Node α × Except TaskError TaskId).1 ∧
      (if x.scheduler.isSome then _ else _ : Node α × Except TaskError TaskId).2 = _
  rw [hx]
  split
  · exact ⟨hp, rfl⟩
  · exact ⟨.of_events rfl, rfl⟩

/-! ## Calls -/

omit [Scalar α] in
/-- An operation that is not rejected is not rejected under a guise with more codelets. -/
theorem mirrors_submit {op : Op α} (hb : ∀ u ∈ op.uses, u.1 < n.handles.length)
    (hc : n.codelets ⊆ x.codelets) (hok : n.submit op = (n', .ok ())) :
    ∃ m', (n.under x).submit op = (m', .ok ()) ∧ Mirrors x n n' m' := by
  unfold submit submitOn at hok ⊢
  split at hok
  · cases hok
  · rename_i hr
    have hr' : (n.under x).rejection op .cpu = none := by
      unfold rejection at hr ⊢
      dsimp only at hr ⊢
      split at hr
      · rename_i hname
        rw [if_pos (show op.name ∈ (n.under x).codelets from hc hname)]
        rw [Option.or_eq_none_iff] at hr ⊢
        refine ⟨hr.1, ?_⟩
        rw [List.findSome?_eq_none_iff] at hr ⊢
        intro u hu
        rw [obstacle_under (hb u hu)]
        exact hr.2 u hu
      · cases hr
    have hm := onlyBuffers_markWritten n op.uses
    obtain ⟨hmirrors, hsame⟩ := mirrors_enqueue (n := n.markWritten op.uses)
      (hx.trans (congrArg Option.isSome hm.scheduler.symm)) op.name op.uses (.compute op)
    rw [hr']
    dsimp only at hok ⊢
    rw [markWritten_under hb]
    rw [Prod.mk.injEq] at hok
    refine ⟨_, Prod.ext rfl ?_, hok.1 ▸ hmirrors.congr hm.events⟩
    dsimp only
    rw [hsame]
    exact hok.2

omit [Scalar α] in
theorem mirrors_acquire {a : Access} {id : TaskId} (hh : h < n.handles.length)
    (hok : n.acquire h a = (n', .ok id)) :
    ∃ m', (n.under x).acquire h a = (m', .ok id) ∧ Mirrors x n n' m' := by
  have hb : ∀ u ∈ [(h, a)], u.1 < n.handles.length := by
    intro u hu
    obtain rfl := List.mem_singleton.mp hu
    exact hh
  have hm := onlyBuffers_markWritten n [(h, a)]
  obtain ⟨⟨new, hev, hunder⟩, hsame⟩ := mirrors_enqueue (n := n.markWritten [(h, a)])
    (hx.trans (congrArg Option.isSome hm.scheduler.symm)) "acquire" [(h, a)] .grant
  unfold acquire at hok ⊢
  split at hok
  · cases hok
  · rename_i ha
    rw [if_neg ha, obstacle_under hh]
    split at hok
    · cases hok
    · rename_i h₀
      rw [markWritten_under hb]
      generalize (n.markWritten [(h, a)]).enqueue "acquire" [(h, a)] .grant = p
        at hok hev hunder hsame
      generalize ((n.markWritten [(h, a)]).under x).enqueue "acquire" [(h, a)] .grant = q
        at hunder hsame ⊢
      obtain ⟨p, r⟩ := p
      obtain ⟨q, r'⟩ := q
      cases r with
      | error e => cases hok
      | ok k =>
        dsimp only at hok hev hunder hsame ⊢
        subst hsame hunder
        cases hok
        exact ⟨_, rfl, new, hev.trans (by rw [hm.events]), rfl⟩

omit [Scalar α] in
theorem mirrors_transfer (hh : h < n.handles.length) (t : Rank) :
    Mirrors x n (n.transfer h t).1 ((n.under x).transfer h t).1 ∧
      ((n.under x).transfer h t).2 = (n.transfer h t).2 := by
  have hskip : ∀ r : Except TaskError Unit,
      Mirrors x n (n, r).1 (n.under x, r).1 ∧ (n.under x, r).2 = (n, r).2 :=
    fun r => ⟨.of_events rfl, rfl⟩
  have hqueue : ∀ (e : Handle α) (name : String) (uses : List (HandleId × Access)) (job : Job α),
      Mirrors x n ((n.setHandle h e).enqueue name uses job).1
        (((n.under x).setHandle h e).enqueue name uses job).1 ∧
      (((n.under x).setHandle h e).enqueue name uses job).2.map (fun _ => ()) =
        ((n.setHandle h e).enqueue name uses job).2.map (fun _ => ()) := by
    intro e name uses job
    rw [setHandle_under hh]
    obtain ⟨hm, hsame⟩ := mirrors_enqueue (n := n.setHandle h e) hx name uses job
    exact ⟨hm.congr rfl, congrArg _ hsame⟩
  unfold transfer
  dsimp only
  rw [handle_under hh]
  rw [under_size, under_rank]
  by_cases hsize : n.size ≤ t
  · rw [if_pos hsize, if_pos hsize]
    exact hskip _
  · rw [if_neg hsize, if_neg hsize]
    by_cases ho : (n.handle h).owner = t
    · rw [if_pos ho, if_pos ho]
      exact hskip _
    · rw [if_neg ho, if_neg ho]
      cases (n.handle h).tag with
      | none => exact hskip _
      | some tag =>
        dsimp only
        by_cases hr : n.rank = t
        · rw [if_pos hr, if_pos hr]
          split
          · exact hskip _
          · exact hqueue _ _ _ _
        · rw [if_neg hr, if_neg hr]
          by_cases hro : n.rank = (n.handle h).owner
          · rw [if_pos hro, if_pos hro]
            generalize (n.handle h).markSent t = p
            obtain ⟨e, marked⟩ := p
            cases marked with
            | false => exact hskip _
            | true => exact hqueue _ _ _ _
          · rw [if_neg hro, if_neg hro]
            exact hskip _

omit [Scalar α] in
theorem mirrors_flush (hh : h < n.handles.length) :
    Mirrors x n (n.flush h).1 ((n.under x).flush h).1 ∧
      ((n.under x).flush h).2 = (n.flush h).2 := by
  unfold flush
  rw [handle_under hh, under_rank]
  generalize (n.handle h).flush n.rank = p
  obtain ⟨e, held⟩ := p
  cases held with
  | false =>
    dsimp only
    rw [setHandle_under hh]
    exact ⟨.of_events rfl, rfl⟩
  | true =>
    dsimp only
    rw [setHandle_under hh]
    obtain ⟨hm, hsame⟩ := mirrors_enqueue (n := n.setHandle h e) hx "evict" [(h, .write)] (.evict h)
    exact ⟨hm.congr rfl, congrArg _ hsame⟩

omit [Scalar α] in
theorem mirrors_release (k : TaskId) : Mirrors x n (n.release k) ((n.under x).release k) :=
  mirrors_post (n := { n with accessors := n.accessors.erase k }) hx (.complete k)

/-! ## Steps -/

theorem mirrors_runWork (hl : n.Licit) {i : Nat} (hok : n.runWork i = some n') :
    ∃ m', (n.under x).runWork i = some m' ∧ Mirrors x n n' m' := by
  obtain ⟨w, hw, rfl⟩ := runWork_eq_some_iff.mp hok
  have hm := onlyMemory_run { n with work := n.work.eraseIdx i } w.op
  have hrun : (({ n with work := n.work.eraseIdx i } : Node α).under x).run w.op =
      (({ n with work := n.work.eraseIdx i } : Node α).run w.op).under x :=
    run_under fun u hu => (hl.work w (List.mem_of_getElem? hw) u hu).1
  refine ⟨_, ?_, ((mirrors_post (hx.trans (congrArg Option.isSome hm.scheduler.symm))
    (.complete w.id))).congr hm.events⟩
  exact runWork_eq_some_iff.mpr ⟨w, hw, congrArg (Node.post · (.complete w.id)) hrun.symm⟩

omit [Scalar α] in
theorem mirrors_abandon {a : Arrival} (hh : a.handle < n.handles.length) (e : TaskError) :
    Mirrors x n (n.abandon a e) ((n.under x).abandon a e) := by
  unfold abandon
  rw [handle_under hh, under_rank]
  dsimp only
  cases ((n.handle a.handle).flush n.rank).1.evict with
  | ok copy =>
    dsimp only
    rw [setHandle_under hh]
    exact (mirrors_post (n := n.setHandle a.handle copy) hx (.fail a.id e)).congr rfl
  | error f =>
    dsimp only
    rw [setHandle_under hh]
    exact .of_events rfl

theorem mirrors_finish {a : Arrival} (hh : a.handle < n.handles.length) (c : Receipt) :
    Mirrors x n (n.finish a c) ((n.under x).finish a c) := by
  cases c with
  | waiting => exact .of_events rfl
  | refused e => exact mirrors_abandon hx hh _
  | delivered payload =>
    have hm := onlyMemory_openHandle n a.handle
    unfold finish accept
    rw [openHandle_under hh]
    generalize n.openHandle a.handle = p at hm ⊢
    obtain ⟨m, r⟩ := p
    have hx' : x.scheduler.isSome = m.scheduler.isSome :=
      hx.trans (congrArg Option.isSome hm.scheduler.symm)
    have hlt : a.handle < m.handles.length := by
      rw [hm.length]
      exact hh
    cases r with
    | error f => exact .of_events hm.events
    | ok block =>
      dsimp only
      by_cases hfit : block.length * Scalar.size α = payload.length
      · rw [if_pos hfit, if_pos hfit]
        dsimp only
        rw [handle_under hlt, setHandle_under hlt]
        exact (mirrors_post (n := m.setHandle a.handle _) hx' _).congr hm.events
      · rw [if_neg hfit, if_neg hfit]
        exact (mirrors_abandon hx' hlt _).congr hm.events

theorem mirrors_takeArrival (hl : n.Licit) {i : Nat} (hok : takeArrival net n i = some (net', n')) :
    ∃ m', takeArrival net (n.under x) i = some (net', m') ∧ Mirrors x n n' m' := by
  obtain ⟨a, c, ha, hc, hw, rfl, rfl⟩ := takeArrival_eq_some_iff.mp hok
  refine ⟨_, ?_, (mirrors_finish (n := { n with arrivals := n.arrivals.eraseIdx i }) hx
    (hl.arrivals a (List.mem_of_getElem? ha)).1 c).congr rfl⟩
  exact takeArrival_eq_some_iff.mpr ⟨a, c, ha, hc, hw, rfl, rfl⟩

/-- Whatever a rank does, except to take an event, it does under a guise as well. -/
theorem mirrors_act (hl : n.Licit) (hc : n.codelets ⊆ x.codelets) {a : Act α} (ha : a ≠ .take)
    (hok : n.act net a = some (net', n')) :
    ∃ m', (n.under x).act net a = some (net', m') ∧ Mirrors x n n' m' := by
  have hlong : n.handles.length ≤ (n.under x).handles.length := by
    show _ ≤ (n.handles ++ x.rest).length
    rw [List.length_append]
    exact Nat.le_add_right _ _
  cases acts_of_act hok with
  | @submit op _ bounds ok =>
    obtain ⟨m', hm', hmirrors⟩ := mirrors_submit hx (fun u hu => (bounds u hu).1) hc ok
    refine ⟨m', ?_, hmirrors⟩
    have hknows : (n.under x).knows (.submit op) = true := List.all_eq_true.mpr fun u hu =>
      decide_eq_true ⟨Nat.lt_of_lt_of_le (bounds u hu).1 hlong, (bounds u hu).2⟩
    unfold act call
    dsimp only
    rw [if_pos hknows, hm']
  | @transfer b t _ bound ok =>
    obtain ⟨hmirrors, hsame⟩ := mirrors_transfer hx bound t
    rw [ok] at hmirrors hsame
    refine ⟨_, ?_, hmirrors⟩
    have hknows : (n.under x).knows (.transfer b t : Call α) = true :=
      decide_eq_true (Nat.lt_of_lt_of_le bound hlong)
    unfold act call
    dsimp only
    rw [if_pos hknows]
    generalize (n.under x).transfer b t = p at hsame ⊢
    obtain ⟨p, r⟩ := p
    obtain rfl : r = .ok () := hsame
    rfl
  | @flush b _ bound ok =>
    obtain ⟨hmirrors, hsame⟩ := mirrors_flush hx bound
    rw [ok] at hmirrors hsame
    refine ⟨_, ?_, hmirrors⟩
    have hknows : (n.under x).knows (.flush b : Call α) = true :=
      decide_eq_true (Nat.lt_of_lt_of_le bound hlong)
    unfold act call
    dsimp only
    rw [if_pos hknows]
    generalize (n.under x).flush b = p at hsame ⊢
    obtain ⟨p, r⟩ := p
    obtain rfl : r = .ok () := hsame
    rfl
  | @acquire b c _ id bound ok =>
    obtain ⟨m', hm', hmirrors⟩ := mirrors_acquire hx bound ok
    refine ⟨m', ?_, hmirrors⟩
    unfold act
    dsimp only
    rw [if_pos (Nat.lt_of_lt_of_le bound hlong), hm']
  | @release k c found =>
    refine ⟨_, ?_, mirrors_release hx k⟩
    have hhas : (n.under x).accessors.has k = true := Option.isSome_iff_exists.mpr ⟨c, found⟩
    unfold act
    dsimp only
    rw [if_pos hhas]
  | @look k c held =>
    have hlt := (hl.accessors k c (held_eq_some_iff.mp held).1).1
    refine ⟨(n.openHandle c.handle).1.under x, ?_,
      .of_events (onlyMemory_openHandle n c.handle).events⟩
    unfold act
    dsimp only
    rw [show (n.under x).held k = some c from held, Option.map_some]
    unfold enter
    rw [openHandle_under hlt]
  | @put k c block _ held ok =>
    have hlt := (hl.accessors k c (held_eq_some_iff.mp held).1).1
    refine ⟨n'.under x, ?_, .of_events (onlyMemory_enterWrite ok).events⟩
    unfold act
    dsimp only
    rw [show (n.under x).held k = some c from held, Option.bind_some]
    have hm := onlyMemory_openHandle n c.handle
    unfold enterWrite enter at ok ⊢
    rw [openHandle_under hlt]
    generalize n.openHandle c.handle = p at ok hm ⊢
    obtain ⟨m, r⟩ := p
    cases r with
    | error f => cases ok
    | ok old =>
      have hlt' : c.handle < m.handles.length := by
        rw [hm.length]
        exact hlt
      dsimp only at ok ⊢
      unfold write at ok ⊢
      split at ok
      · rename_i hw
        rw [if_pos hw, handle_under hlt', setHandle_under hlt']
        cases ok
        rfl
      · cases ok
  | take ok => exact absurd rfl ha
  | @work i _ ok =>
    obtain ⟨m', hm', hmirrors⟩ := mirrors_runWork hx hl ok
    refine ⟨m', ?_, hmirrors⟩
    unfold act
    dsimp only
    rw [hm', Option.map_some]
  | @arrive i _ _ ok => exact mirrors_takeArrival hx hl ok

end

end Node

end TiledTensor
