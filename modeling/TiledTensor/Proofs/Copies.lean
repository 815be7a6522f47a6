import TiledTensor.Proofs.Jobs
import TiledTensor.Proofs.Lockstep
import TiledTensor.Proofs.Payload
import TiledTensor.Proofs.Retention
import TiledTensor.Proofs.Tidings

/-!
# What becomes of a copy

`Node.Copied` says what a rank knows and holds of the copy of a buffer when the copy stands as it
does after some tidings.  Every happening goes on with it: a call or the end of a receive changes
how the copy stands, and nothing else concerns it.
-/

namespace TiledTensor

namespace Node

variable {α : Type} {n n' m : Node α} {h j : HandleId} {ts : List Tiding} {b b' : Scheduler.Record α}
  {s : Scheduler α} {net net' : Cluster} {a : Happening α} {t u : Task α} {k : TaskId}
  {todo tasks : List (Task α)}

section

variable [Scalar α]

/-- The end of a task has been reported. -/
def Reported (n : Node α) (b : Scheduler.Record α) (k : TaskId) : Prop :=
  k ∈ b.ended ∨ k ∈ reports n.events

/-- The buffer holds a payload that has been received. -/
def Filled (n : Node α) (h : HandleId) (payload : Payload) : Prop :=
  ∃ block, (n.handle h).memory = .present block ∧ Scalar.encodeBlock block = payload

/-- What a rank knows and holds of the copy of a buffer, after some tidings. -/
structure Copied (b : Scheduler.Record α) (n : Node α) (h : HandleId) (ts : List Tiding) : Prop where
  cached : (n.handle h).state = .remoteCached ↔ (standing ts).task?.isSome
  receives : ∀ k, (standing ts).task? = some k →
    ∃ t ∈ b.submitted ++ submits n.events, t.id = k ∧ ∃ src tag, t.job = .receive h src tag
  /-- No copy is received or freed after the one that was asked for last. -/
  last : ∀ k, (standing ts).task? = some k →
    ∀ t ∈ b.submitted ++ submits n.events, t.job.copy? = some h → t.id ≤ k
  coming : ∀ k, standing ts = .coming k → ¬n.Reported b k
  started : ∀ k payload, standing ts = .here k payload → k ∈ b.started.map (·.id)
  reported : ∀ k payload, standing ts = .here k payload → n.Reported b k
  filled : ∀ k payload, standing ts = .here k payload → n.Filled h payload

/-- A transfer that asks for a copy is told of. -/
theorem Asks.tidings {r : Rank} {tag : Tag} {name : String} (asks : n.Asks h r tag)
    (hh : h < n.handles.length) :
    (Scene.mk net n (.transfer h r) ((n.setHandle h (n.handle h).markCached).enqueue name [(h, .write)]
      (.receive h (n.handle h).owner tag)).1).tidings h = [.asked n.nextTask] := by
  refine if_pos ⟨rfl, asks.vacant, ?_⟩
  rw [handle_of_handles (enqueue_handles _ _ _ _), handle_setHandle, if_pos ⟨rfl, hh⟩]
  rfl

namespace Copied

/-- The copy stands as before. -/
theorem keep (hc : Copied b n h ts) (hstate : (n'.handle h).state = (n.handle h).state)
    (hlog : ∀ t : Task α, t.job.copy? = some h →
      (t ∈ b'.submitted ++ submits n'.events ↔ t ∈ b.submitted ++ submits n.events))
    (hstarted : b.started ⊆ b'.started)
    (hreported : ∀ k, (standing ts).task? = some k → (n'.Reported b' k ↔ n.Reported b k))
    (hmem : ∀ k payload, standing ts = .here k payload → Retains h n n') :
    Copied b' n' h ts := by
  have htask : ∀ {k payload}, standing ts = .here k payload → (standing ts).task? = some k := by
    intro k payload hs
    rw [hs]
    rfl
  constructor
  case cached =>
    rw [hstate]
    exact hc.cached
  case receives =>
    intro k hk
    obtain ⟨t, ht, hid, src, tag, hjob⟩ := hc.receives k hk
    exact ⟨t, (hlog t (by rw [hjob]; rfl)).mpr ht, hid, src, tag, hjob⟩
  case last =>
    intro k hk t ht hj
    exact hc.last k hk t ((hlog t hj).mp ht) hj
  case coming =>
    intro k hs hr
    exact hc.coming k hs ((hreported k (by rw [hs]; rfl)).mp hr)
  case started =>
    intro k payload hs
    obtain ⟨t, ht, hid⟩ := List.mem_map.mp (hc.started k payload hs)
    exact List.mem_map.mpr ⟨t, hstarted ht, hid⟩
  case reported =>
    intro k payload hs
    exact (hreported k (htask hs)).mpr (hc.reported k payload hs)
  case filled =>
    intro k payload hs
    obtain ⟨block, hmemory, hpayload⟩ := hc.filled k payload hs
    exact ⟨block, hmem k payload hs block hmemory, hpayload⟩

/-- Where there is no copy nothing is to be said but that there is none. -/
theorem of_none (hs : (standing ts).task? = none) (hstate : (n.handle h).state ≠ .remoteCached) :
    Copied b n h ts := by
  have hcoming : ∀ k, standing ts ≠ .coming k := by
    intro k heq
    rw [heq] at hs
    cases hs
  have hhere : ∀ k payload, standing ts ≠ .here k payload := by
    intro k payload heq
    rw [heq] at hs
    cases hs
  refine ⟨?_, ?_, ?_, fun k h => absurd h (hcoming k), fun k p h => absurd h (hhere k p),
    fun k p h => absurd h (hhere k p), fun k p h => absurd h (hhere k p)⟩
  · rw [hs]
    exact iff_of_false hstate nofun
  · intro k hk
    cases hs.symm.trans hk
  · intro k hk
    cases hs.symm.trans hk

/-! ### Calls -/

/-- A call that does not change the mark of a copy. -/
theorem calls (hc : Copied b n h ts) (hk : Kept b [] n s) (hcalls : n.Calls n')
    (hstate : (n'.handle h).state = (n.handle h).state) (hmem : Retains h n n') :
    Copied b n' h ts := by
  obtain ⟨new, hev, hb⟩ := hcalls.books
  have hsub : submits n'.events = submits n.events ++ submits new := by rw [hev, submits_append]
  refine hc.keep hstate ?_ (fun _ ht => ht) ?_ fun _ _ _ => hmem
  · intro t hj
    rw [hsub, ← List.append_assoc, List.mem_append (s := b.submitted ++ submits n.events)]
    refine or_iff_left fun hin => ?_
    cases hb with
    | task u id may nextTask nextBarrier accessors copies =>
      obtain rfl := List.mem_singleton.mp hin
      have hiff := copies h hj
      rw [hstate] at hiff
      exact iff_not_self hiff
    | _ => cases hin
  · intro k hs
    obtain ⟨t, ht, rfl, src, tag, hjob⟩ := hc.receives k hs
    unfold Reported
    rw [hev, reports_append, List.mem_append, ← or_assoc]
    refine or_iff_left fun hin => ?_
    cases hb with
    | release j held nextTask nextBarrier accessors =>
      obtain rfl := List.mem_singleton.mp hin
      obtain ⟨c, hfind⟩ := Option.isSome_iff_exists.mp held
      obtain ⟨-, u, hu, hid, hg⟩ := hk.accessors _ c hfind
      obtain rfl : u = t := List.inj_on_of_nodup_map hk.nodup hu ht hid
      cases hg.symm.trans hjob
    | _ => cases hin

/-- The copy is asked for. -/
theorem ask {name : String} {src : Rank} {tag : Tag} (hk : Kept b [] n s)
    (hk' : Kept b [] ((n.setHandle h (n.handle h).markCached).enqueue name [(h, .write)]
      (.receive h src tag)).1 s) (hh : h < n.handles.length) :
    Copied b ((n.setHandle h (n.handle h).markCached).enqueue name [(h, .write)]
      (.receive h src tag)).1 h (ts ++ [.asked n.nextTask]) := by
  have halive : n.scheduler.isSome := by rw [hk.scheduler]; rfl
  have hev : ((n.setHandle h (n.handle h).markCached).enqueue name [(h, .write)]
      (.receive h src tag)).1.events =
      n.events ++ [.submit ⟨n.nextTask, name, [(h, .write)], .receive h src tag⟩] :=
    enqueue_events halive
  have hnext : ((n.setHandle h (n.handle h).markCached).enqueue name [(h, .write)]
      (.receive h src tag)).1.nextTask = n.nextTask + 1 := enqueue_nextTask _ _ _ _
  have hstanding : standing (ts ++ [.asked n.nextTask]) = .coming n.nextTask := by
    rw [standing_append_singleton, Standing.pass_asked]
  have hlt : ∀ t ∈ b.submitted ++ submits n.events, t.id < n.nextTask := by
    intro t ht
    have hmem := List.mem_map_of_mem (f := fun t : Task α => t.id) ht
    rw [hk.numbered] at hmem
    exact List.mem_range.mp hmem
  constructor
  case cached =>
    rw [hstanding, handle_of_handles (enqueue_handles _ _ _ _), handle_setHandle, if_pos ⟨rfl, hh⟩]
    exact iff_of_true rfl rfl
  case receives =>
    rw [hstanding, hev, submits_append]
    rintro k ⟨⟩
    exact ⟨⟨n.nextTask, name, [(h, .write)], .receive h src tag⟩,
      List.mem_append_right _ (List.mem_append_right _ List.mem_cons_self), rfl, src, tag, rfl⟩
  case last =>
    rw [hstanding]
    rintro k ⟨⟩ t ht -
    have hmem := List.mem_map_of_mem (f := fun t : Task α => t.id) ht
    rw [hk'.numbered, hnext] at hmem
    exact Nat.le_of_lt_succ (List.mem_range.mp hmem)
  case coming =>
    rw [hstanding]
    rintro k ⟨⟩ (hin | hin)
    · obtain ⟨t, ht, hid⟩ := List.mem_map.mp (hk.fits.ended _ hin)
      have hsub := ((hk.fits.waiting t.id).mp (List.mem_map_of_mem ht)).1
      exact Nat.lt_irrefl _ (hid ▸ hk.lt_of_submitted hsub)
    · rw [hev, reports_append] at hin
      rcases List.mem_append.mp hin with hin | hin
      · rcases hk.ends _ hin with hin | ⟨t, ht, hid, -⟩
        · exact Nat.lt_irrefl _ (hk.lt_of_submitted ((hk.fits.waiting _).mp hin).1)
        · exact Nat.lt_irrefl _ (hid ▸ hlt t ht)
      · cases hin
  case started =>
    rw [hstanding]
    exact nofun
  case reported =>
    rw [hstanding]
    exact nofun
  case filled =>
    rw [hstanding]
    exact nofun

/-- A transfer asks for the copy, or it does nothing. -/
theorem transfer {r : Rank} (hc : Copied b n h ts) (hk : Kept b [] n s) (hh : h < n.handles.length)
    (hf : (n.handle h).owner ≠ n.rank) : Copied b (n.transfer h r).1 h
      (ts ++ (Scene.mk net n (.transfer h r) (n.transfer h r).1).tidings h) := by
  have hk' := hk.calls (calls_transfer n h r)
  have htransfer := transfers n h r
  generalize (n.transfer h r).1 = n' at htransfer hk'
  cases htransfer with
  | skips nothing =>
    rw [tidings_of_state (a := .transfer h r) rfl nofun rfl, List.append_nil]
    exact hc
  | asks tag name asks =>
    rw [asks.tidings hh]
    exact ask hk hk' hh
  | sends tag name sends => exact absurd sends.owned hf

/-- A flush takes the copy away. -/
theorem flush (hh : h < n.handles.length) (hf : (n.handle h).owner ≠ n.rank) :
    Copied b (n.flush h).1 h (ts ++ [.flushed]) := by
  refine of_none ?_ ?_
  · rw [standing_append_singleton, Standing.pass_flushed]
    rfl
  · rw [state_flush hf hh]
    exact nofun

/-- What a call does to a copy. -/
theorem undergo_call (hc : Copied b n h ts) (hk : Kept b [] n s) (hh : h < n.handles.length)
    (hf : (n.handle h).owner ≠ n.rank) (ha : a.isCall = true)
    (hstep : n.undergo net a = some (net', n')) :
    Copied b n' h (ts ++ (Scene.mk net n a n').tidings h) := by
  have hcalls := (calls_of_undergo ha hstep).2
  have he := edits_of_undergo ha hstep
  have hmem : Retains h n n' := by
    refine he.retains fun k c hheld hw heq => ?_
    have hadm := (hk.accessors k c (held_eq_some_iff.mp hheld).1).1
    exact hf (heq ▸ hadm hw)
  have hsame : a ≠ .flush h → (n'.handle h).state = (n.handle h).state →
      Copied b n' h (ts ++ (Scene.mk net n a n').tidings h) := by
    intro hflush hstate
    rw [tidings_of_state ha hflush hstate, List.append_nil]
    exact hc.calls hk hcalls hstate hmem
  cases a with
  | transfer j r =>
    obtain rfl : (n.transfer j r).1 = n' := (Prod.mk.inj (Option.some.inj hstep)).2
    by_cases hj : j = h
    · subst hj
      exact hc.transfer hk hh hf
    · exact hsame nofun (congrArg Handle.state (handle_transfer_of_ne n r hj))
  | flush j =>
    obtain rfl : (n.flush j).1 = n' := (Prod.mk.inj (Option.some.inj hstep)).2
    by_cases hj : j = h
    · subst hj
      show Copied b _ j (ts ++ if j = j then [.flushed] else [])
      rw [if_pos rfl]
      exact flush hh hf
    · exact hsame (fun heq => hj (Happening.flush.inj heq))
        (congrArg Handle.state (handle_flush_of_ne n hj))
  | take => cases ha
  | work i => cases ha
  | arrive i => cases ha
  | _ => exact hsame nofun ((he.marks rfl).2 hf)

/-! ### What the rank does by itself -/

/-- The scheduler takes an event. -/
theorem react {e : Event α} {events : List (Event α)} {r : Reaction α} {s' : Option (Scheduler α)}
    (hc : Copied b n h ts) (hk : Kept b [] n s) (he : n.events = e :: events) :
    Copied (b.add e r) { n with events, scheduler := s' } h ts := by
  refine hc.keep rfl ?_ (fun _ ht => List.mem_append_left _ ht) ?_ fun _ _ _ => .refl h n
  · intro t _
    show t ∈ (b.add e r).submitted ++ submits events ↔ _
    rw [Kept.log_add, ← he]
  · intro k hs
    obtain ⟨t, ht, rfl, src, tag, hjob⟩ := hc.receives k hs
    have hstarted : ∀ {f : Event α}, f ∈ n.events → f.ended? = some t.id →
        t.id ∈ b.started.map (·.id) := by
      intro f hf hend
      refine (hk.ends t.id (List.mem_filterMap.mpr ⟨f, hf, hend⟩)).resolve_right ?_
      rintro ⟨u, hu, hid, hg⟩
      obtain rfl : u = t := List.inj_on_of_nodup_map hk.nodup hu ht hid
      cases hg.symm.trans hjob
    have hreports : reports n.events = e.ended?.toList ++ reports events := by
      rw [he]
      cases e <;> rfl
    unfold Reported
    rw [hreports, List.mem_append, Option.mem_toList, ← or_assoc]
    refine or_congr_left ?_
    unfold Scheduler.Record.add
    dsimp only
    cases hend : e.ended? with
    | none => exact (or_iff_left nofun).symm
    | some j =>
      dsimp only
      by_cases hj : j = t.id
      · subst hj
        rw [if_pos (hstarted (he ▸ List.mem_cons_self) hend)]
        exact iff_of_true (List.mem_append_right _ List.mem_cons_self) (Or.inr rfl)
      · rw [or_iff_left fun h => hj (Option.some.inj h)]
        split
        · rw [List.mem_append, List.mem_singleton, or_iff_left fun h => hj h.symm]
        · exact Iff.rfl

/-- Where a copy is here, every earlier task that received or freed one has ended. -/
theorem ended_of_here {payload : Payload} (hc : Copied b n h ts) (hk : Kept b todo n s)
    (hs : standing ts = .here k payload) (ht : t ∈ b.started) (hj : t.job.copy? = some h)
    (hne : t.id ≠ k) : t.id ∈ b.ended := by
  have htask : (standing ts).task? = some k := by rw [hs]; rfl
  obtain ⟨u, hu, rfl, src, tag, hjob⟩ := hc.receives k htask
  have hstarted := hc.started _ _ hs
  have husub : u ∈ b.submitted := by
    obtain ⟨v, hv, hvid⟩ := List.mem_map.mp hstarted
    obtain rfl : v = u := hk.eq_of_id hv hu hvid (by rw [hjob]; rfl)
    exact hk.submitted_of_started hv (by rw [hjob]; rfl)
  have htsub := hk.submitted_of_started ht (labours_of_copy hj)
  have hle := hc.last _ htask t (List.mem_append_left _ htsub) hj
  have hordered : b.submitted.Pairwise fun x y => x.id < y.id := by
    have hnum := hk.numbered
    rw [List.map_append] at hnum
    have hall : (b.submitted.map (·.id) ++ (submits n.events).map (·.id)).Pairwise (· < ·) :=
      hnum ▸ List.pairwise_lt_range
    exact List.pairwise_map.mp (List.pairwise_append.mp hall).1
  have hbefore : Before b.submitted t u := by
    rcases Before.total htsub husub with rfl | hb | hb
    · exact absurd rfl hne
    · exact hb
    · exact absurd (hb.rel hordered) (Nat.not_lt.mpr hle)
  have huses : ∀ v ∈ b.submitted, v.job.copy? = some h → (h, .write) ∈ v.uses := by
    intro v hv hvj
    have hm := hk.may v (List.mem_append_left _ hv)
    unfold May at hm
    cases hjv : v.job with
    | receive j src' tag' =>
      rw [hjv] at hm hvj
      cases hvj
      exact hm.1 ▸ List.mem_cons_self
    | evict j =>
      rw [hjv] at hm hvj
      cases hvj
      exact hm.1 ▸ List.mem_cons_self
    | _ =>
      rw [hjv] at hvj
      cases hvj
  exact hk.fits.turn t u hbefore
    (.of_write (huses t htsub hj) (huses u husub (by rw [hjob]; rfl)) rfl nofun) hstarted

/-- Starting a task leaves a copy as it stands. -/
theorem start (hc : Copied b n h ts) (hk : Kept b (t :: todo) n s)
    (hs : n.Starts net t net' n') (hn : n'.scheduler.isSome) : Copied b n' h ts := by
  have ht : t ∈ b.started := hk.starting List.mem_cons_self
  have hevents := hs.events hn
  have hlog : submits n'.events = submits n.events := by
    rcases hevents with hev | hev
    · rw [hev]
    · rw [hev, submits_append]
      exact List.append_nil _
  refine hc.keep (state_of_bare (hs.bare h)) (fun u _ => by rw [hlog]) (fun _ hu => hu) ?_ ?_
  · intro k hstanding
    obtain ⟨u, hu, rfl, src, tag, hjob⟩ := hc.receives k hstanding
    unfold Reported
    by_cases hid : t.id = u.id
    · -- the receive itself is started, and reports nothing yet
      obtain rfl : t = u := hk.eq_of_id ht hu hid (by rw [hjob]; rfl)
      cases hs with
      | receives j src' tag' job => exact Iff.rfl
      | computes op job => exact Iff.rfl
      | grants job held => exact Iff.rfl
      | sends j dst tag' block _ job opened sent => cases job.symm.trans hjob
      | refused j dst tag' block e job opened unsent => cases job.symm.trans hjob
      | unopened j dst tag' f job unopened => cases job.symm.trans hjob
      | evicts j e job freed => cases job.symm.trans hjob
      | unfreed j f job unfreed => cases job.symm.trans hjob
      | vacant job gone => cases job.symm.trans hjob
      | retires tags job => cases job.symm.trans hjob
      | withdrawn job => cases job.symm.trans hjob
    · rcases hevents with hev | hev
      · rw [hev]
      · rw [hev, reports_append, List.mem_append]
        refine or_congr_right (or_iff_left fun hin => hid ?_)
        exact (List.mem_singleton.mp hin).symm
  · intro k payload hstanding
    refine hs.retains fun hjob => ?_
    -- an eviction that comes before the receive has ended long ago
    have htask : (standing ts).task? = some k := by rw [hstanding]; rfl
    obtain ⟨u, hu, rfl, src, tag, hujob⟩ := hc.receives k htask
    have hne : t.id ≠ u.id := by
      intro hid
      obtain rfl : t = u := hk.eq_of_id ht hu hid (by rw [hujob]; rfl)
      cases hjob.symm.trans hujob
    have hended := hc.ended_of_here hk hstanding ht (by rw [hjob]; rfl) hne
    have hdues := hk.dues t ht (by rw [hjob]; rfl)
    have hcount := List.count_pos_iff.mpr hended
    unfold dues at hdues
    rw [count_ids_cons, List.count_singleton_self] at hdues
    omega

theorem startAll (hc : Copied b n h ts) (hk : Kept b tasks n s)
    (hn : (startAll net n tasks).2.scheduler.isSome) : Copied b (startAll net n tasks).2 h ts := by
  refine And.left (startAll_of_alive (P := fun todo m => Copied b m h ts ∧ ∃ s', Kept b todo m s')
    ⟨hc, s, hk⟩ ?_ hn)
  rintro net net' m m' t todo hs hgo ⟨hm, s', hk'⟩
  exact ⟨hm.start hk' hs hgo, hk'.start hs hgo⟩

/-- A task that is no receive of the copy ends. -/
theorem report {e : Event α} (hc : Copied b n h ts) (hk : Kept b todo n s) (ht : t ∈ b.started)
    (hj : ∀ src tag, t.job ≠ .receive h src tag) (hend : e.ended? = some t.id)
    (hev : n'.events = n.events ++ [e]) (hstate : (n'.handle h).state = (n.handle h).state)
    (hmem : Retains h n n') : Copied b n' h ts := by
  have hlog : submits n'.events = submits n.events := by
    rw [hev, submits_append]
    cases e with
    | submit u => cases hend
    | _ => exact List.append_nil _
  have hreports : reports n'.events = reports n.events ++ [t.id] := by
    rw [hev, reports_append]
    unfold reports
    rw [List.filterMap_cons_some hend, List.filterMap_nil]
  refine hc.keep hstate (fun u _ => by rw [hlog]) (fun _ hu => hu) ?_ fun _ _ _ => hmem
  intro k hs
  obtain ⟨u, hu, rfl, src, tag, hjob⟩ := hc.receives k hs
  unfold Reported
  rw [hreports, List.mem_append]
  refine or_congr_right (or_iff_left fun hin => ?_)
  obtain rfl : t = u := hk.eq_of_id ht hu (List.mem_singleton.mp hin).symm (by rw [hjob]; rfl)
  exact hj src tag hjob

/-- A computation leaves a copy as it stands. -/
theorem runWork {i : Nat} {w : Work α} (hc : Copied b n h ts) (hk : Kept b [] n s)
    (hf : (n.handle h).owner ≠ n.rank) (hw : n.work[i]? = some w) : Copied b
    ((({ n with work := n.work.eraseIdx i } : Node α).run w.op).post (.complete w.id)) h ts := by
  obtain ⟨t, ht, hid, hjob⟩ := hk.work w (List.mem_of_getElem? hw)
  have hm := onlyMemory_run { n with work := n.work.eraseIdx i } w.op
  have hmay := hk.may t (List.mem_append_left _ (hk.submitted_of_started ht (by rw [hjob]; rfl)))
  unfold May at hmay
  rw [hjob] at hmay
  have htouches : Touches (fun j => (n.handle j).owner = n.rank)
      { n with work := n.work.eraseIdx i } _ := touches_run _ hmay.2
  have hn : n.scheduler.isSome := by rw [hk.scheduler]; rfl
  have hev := post_events _ (.complete w.id) (hm.scheduler ▸ hn)
  rw [hm.events] at hev
  refine hc.report hk ht ?_ ?_ hev ?_ ((htouches.retains hf).congr (post_handles _ _))
  · intro src tag heq
    cases hjob.symm.trans heq
  · exact congrArg some hid.symm
  · rw [handle_of_handles (post_handles _ _)]
    exact hm.state h

/-- The end of a receive of another buffer leaves a copy as it stands. -/
theorem finish_of_ne {i : Nat} {c : Arrival} {r : Receipt} (hc : Copied b n h ts)
    (hk : Kept b [] n s) (ha : n.arrivals[i]? = some c)
    (hf : Finishes { n with arrivals := n.arrivals.eraseIdx i } c r n') (hne : c.handle ≠ h) :
    Copied b n' h ts := by
  obtain ⟨t, ht, hid, -, src, tag, hjob⟩ := hk.arrivals c (List.mem_of_getElem? ha)
  have hj : ∀ src tag, t.job ≠ .receive h src tag := by
    intro src' tag' heq
    cases hjob.symm.trans heq
    exact hne rfl
  have hn : n.scheduler.isSome := by rw [hk.scheduler]; rfl
  have hstate : (n'.handle h).state = (n.handle h).state := state_of_bare (hf.bare_of_ne hne)
  have hmem : Retains h n n' := hf.retains_of_ne hne
  rcases hf.events hn with hev | hev | ⟨e, hev⟩
  · refine hc.keep hstate (fun u _ => by rw [hev]) (fun _ hu => hu) ?_ fun _ _ _ => hmem
    intro k _
    unfold Reported
    rw [hev]
  · refine hc.report hk ht hj ?_ hev hstate hmem
    exact congrArg some hid.symm
  · refine hc.report hk ht hj ?_ hev hstate hmem
    exact congrArg some hid.symm

omit [Scalar α] in
/-- While a receive is under way its end has not been reported. -/
theorem not_reported {c : Arrival} (hk : Kept b [] n s) (ha : c ∈ n.arrivals) :
    ¬n.Reported b c.id := by
  obtain ⟨t, ht, hid, -, src, tag, hjob⟩ := hk.arrivals c ha
  have hdues := hk.dues t ht (by rw [hjob]; rfl)
  have harrivals : 0 < (n.arrivals.map (·.id)).count t.id :=
    List.count_pos_iff.mpr (hid ▸ List.mem_map_of_mem ha)
  unfold dues at hdues
  rw [← hid]
  rintro (hin | hin)
  · have := List.count_pos_iff.mpr hin
    omega
  · have := List.count_pos_iff.mpr hin
    omega

omit [Scalar α] in
/-- Nothing more is to be said of tidings than how the copy stands. -/
theorem of_standing {ts' : List Tiding} [Scalar α] (hc : Copied b n h ts)
    (hs : standing ts' = standing ts) : Copied b n h ts' := by
  refine ⟨?_, ?_, ?_, ?_, ?_, ?_, ?_⟩ <;> rw [hs]
  · exact hc.cached
  · exact hc.receives
  · exact hc.last
  · exact hc.coming
  · exact hc.started
  · exact hc.reported
  · exact hc.filled

/-- The copy that is to come is here. -/
theorem fill {payload : Payload} (hc : Copied b n h ts) (hs : standing ts = .coming k)
    (hstate : (n'.handle h).state = (n.handle h).state)
    (hlog : submits n'.events = submits n.events) (hstarted : k ∈ b.started.map (·.id))
    (hreported : n'.Reported b k) (hfilled : n'.Filled h payload) :
    Copied b n' h (ts ++ [.arrived k payload]) := by
  have hpass : standing (ts ++ [.arrived k payload]) = .here k payload := by
    rw [standing_append_singleton, hs, Standing.pass_coming, if_pos rfl]
  have htask : (standing ts).task? = some k := by rw [hs]; rfl
  refine ⟨?_, ?_, ?_, ?_, ?_, ?_, ?_⟩ <;> rw [hpass]
  · rw [hstate, hc.cached, htask]
    exact Iff.rfl
  · rw [hlog]
    rintro j ⟨⟩
    exact hc.receives k htask
  · rw [hlog]
    rintro j ⟨⟩
    exact hc.last k htask
  · exact nofun
  · rintro j p ⟨⟩
    exact hstarted
  · rintro j p ⟨⟩
    exact hreported
  · rintro j p ⟨⟩
    exact hfilled

/-- A payload is received into the copy. -/
theorem arrive {c : Arrival} {payload : Payload} (hc : Copied b n c.handle ts) (hk : Kept b [] n s)
    (ha : c ∈ n.arrivals) (hstate : (n'.handle c.handle).state = (n.handle c.handle).state)
    (hev : n'.events = n.events ++ [.complete c.id]) (hfilled : n'.Filled c.handle payload) :
    Copied b n' c.handle (ts ++ [.arrived c.id payload]) := by
  have hunreported := not_reported hk ha
  obtain ⟨t, ht, hid, -, src, tag, hjob⟩ := hk.arrivals c ha
  have hlog : submits n'.events = submits n.events := by
    rw [hev, submits_append]
    exact List.append_nil _
  have hreports : ∀ k, n'.Reported b k ↔ n.Reported b k ∨ k = c.id := by
    intro k
    unfold Reported
    rw [hev, reports_append, List.mem_append, or_assoc]
    exact or_congr_right (or_congr_right List.mem_singleton)
  have hpass := standing_append_singleton ts (.arrived c.id payload)
  cases hs : standing ts with
  | coming k =>
    by_cases hck : c.id = k
    · subst hck
      have hreported : n'.Reported b c.id := (hreports _).mpr (Or.inr rfl)
      exact hc.fill hs hstate hlog (hid ▸ List.mem_map_of_mem ht) hreported hfilled
    · rw [hs, Standing.pass_coming, if_neg hck] at hpass
      refine (hc.keep hstate (fun u _ => by rw [hlog]) (fun _ hu => hu) ?_ ?_).of_standing
        (hpass.trans hs.symm)
      · intro j hj
        rw [hs] at hj
        obtain rfl : k = j := Option.some.inj hj
        rw [hreports]
        exact or_iff_left fun h => hck h.symm
      · intro j p hj
        cases hs.symm.trans hj
  | here k p =>
    -- no receive of the copy is left under way once it is here
    refine absurd ?_ hunreported
    by_cases hck : c.id = k
    · exact hck ▸ hc.reported k p hs
    · have hended := hc.ended_of_here hk hs ht (by rw [hjob]; rfl) (hid ▸ hck)
      exact Or.inl (hid ▸ hended)
  | none =>
    refine of_none ?_ ?_
    · rw [hpass, hs]
      rfl
    · rw [hstate, Ne, hc.cached, hs]
      exact nofun
  | lost =>
    refine of_none ?_ ?_
    · rw [hpass, hs]
      rfl
    · rw [hstate, Ne, hc.cached, hs]
      exact nofun

/-- A payload that fits takes up all of a buffer. -/
theorem memory_store {block new : List α} (hopened : (n.openHandle h).2 = .ok block)
    (hh : h < n.handles.length) (hlen : block.length = new.length) :
    (((n.openHandle h).1.handle h).store new).memory = .present new := by
  have hpresent : ((n.openHandle h).1.handle h).memory = .present block := by
    rw [openHandle_fst, handle_setHandle, if_pos ⟨rfl, hh⟩]
    rw [openHandle_snd] at hopened
    unfold Handle.access at hopened ⊢
    split at hopened
    · cases hopened
    · rename_i old hold
      cases hopened
      exact hold
    · split at hopened
      · rename_i hroom
        cases hopened
        rw [if_pos hroom]
      · cases hopened
  unfold Handle.store
  rw [hpresent]
  exact congrArg Memory.present (overlay_of_length hlen)

/-- A receive of the copy ends. -/
theorem finish {i : Nat} {c : Arrival} {r : Receipt} (hc : Copied b n c.handle ts)
    (hk : Kept b [] n s) (ha : n.arrivals[i]? = some c) (hh : c.handle < n.handles.length)
    (hf : Finishes { n with arrivals := n.arrivals.eraseIdx i } c r n') :
    Copied b n' c.handle (ts ++ n.outcome c r) := by
  have hmem := List.mem_of_getElem? ha
  have hforeign := hk.foreign_of_arrival hmem
  have hunreported := not_reported hk hmem
  obtain ⟨t, ht, hid, -, src, tag, hjob⟩ := hk.arrivals c hmem
  have hn : n.scheduler.isSome := by rw [hk.scheduler]; rfl
  have hopen : OnlyMemory { n with arrivals := n.arrivals.eraseIdx i } _ :=
    onlyMemory_openHandle _ c.handle
  cases hf with
  | accepts payload block opened fits =>
    have hout : n.outcome c (.delivered payload) = [.arrived c.id payload] := by
      have hopened : (n.openHandle c.handle).2 = .ok block := opened
      unfold outcome
      dsimp only
      rw [hopened]
      exact if_pos fits
    rw [hout]
    refine hc.arrive hk hmem ?_ (post_events _ _ hn)
      ⟨Scalar.decodeBlock block.length payload, ?_, Scalar.encodeBlock_decodeBlock fits⟩
    · rw [handle_of_handles (post_handles _ _)]
      exact (hopen.trans (onlyMemory_store _ _ _)).state _
    · rw [handle_of_handles (post_handles _ _), handle_setHandle, if_pos ⟨rfl, hopen.length ▸ hh⟩]
      exact memory_store opened hh (Scalar.length_decodeBlock _ _).symm
  | abandons _ m e fails =>
    have hout : n.outcome c r = [.failed c.id] := by
      cases fails with
      | refused e => rfl
      | payload payload block opened misfit =>
        have hopened : (n.openHandle c.handle).2 = .ok block := opened
        unfold outcome
        dsimp only
        rw [hopened]
        exact if_neg misfit
    have hm := fails.onlyMemory
    rw [hout]
    refine of_none ?_ ?_
    · rw [standing_append_singleton, Standing.task_pass_failed]
    · rw [state_abandon]
      · exact nofun
      · rw [owner_of_setting hm.setting, hm.rank]
        exact hforeign
      · rw [hm.length]
        exact hh
  | unopened payload f unopened =>
    have hout : n.outcome c (.delivered payload) = [] := by
      have hopened : (n.openHandle c.handle).2 = .error f := unopened
      unfold outcome
      dsimp only
      rw [hopened]
    rw [hout, List.append_nil]
    exact hc.keep (hopen.state _) (fun _ _ => Iff.rfl) (fun _ hu => hu) (fun _ _ => Iff.rfl)
      fun _ _ _ => .openHandle _ c.handle

/-- Every happening goes on with the tidings, as long as the scheduler runs. -/
theorem undergo {s' : Scheduler α} (hc : Copied b n h ts) (hk : Kept b [] n s)
    (hh : h < n.handles.length) (hf : (n.handle h).owner ≠ n.rank)
    (hstep : n.undergo net a = some (net', n')) (hs : n'.scheduler = some s') :
    Copied (Scene.note b ⟨net, n, a, n'⟩) n' h (ts ++ (Scene.mk net n a n').tidings h) := by
  cases undergoes_of_undergo hstep with
  | calls call calls edits =>
    rw [Scene.note_of_isCall call]
    exact hc.undergo_call hk hh hf call hstep
  | takes takes =>
    show Copied _ n' h (ts ++ [])
    rw [List.append_nil]
    obtain ⟨e, events, p, queue, react, rfl, rfl⟩ := takes.reacts_of_alive hk.scheduler (hs ▸ rfl)
    have hk' := hk.of_react queue react
    rw [Scene.note_of_react hk.scheduler queue react]
    have hstart : Copied (b.add e p.2) { n with events, scheduler := some p.1 } h ts :=
      hc.react hk queue
    have hend := hstart.startAll hk' (Option.isSome_iff_exists.mpr ⟨s', hs⟩)
    exact ⟨hend.cached, hend.receives, hend.last, hend.coming, hend.started, hend.reported,
      hend.filled⟩
  | works i w queued =>
    show Copied b _ h (ts ++ [])
    rw [List.append_nil]
    exact hc.runWork hk hf queued
  | arrives i c r pending receipt finishes =>
    show Copied b _ h _
    unfold Scene.tidings
    dsimp only
    rw [pending]
    dsimp only
    by_cases hch : c.handle = h
    · subst hch
      rw [if_pos rfl, receipt]
      exact hc.finish hk pending hh finishes
    · rw [if_neg hch, List.append_nil]
      exact hc.finish_of_ne hk pending finishes hch

end Copied

/-! ## Courses -/

variable {n₀ : Node α} {scenes : List (Scene α)}

/-- Through every course the rank knows and holds of a copy what the tidings say. -/
theorem Course.copied (course : n₀.Course scenes n) (fresh : n₀.Fresh)
    (foreign : (n₀.handle h).owner ≠ n₀.rank) (hh : h < n₀.handles.length)
    (hs : n.scheduler = some s) : Copied (Scene.record scenes) n h (tidings h scenes) := by
  induction course generalizing s with
  | nil => exact .of_none rfl (fresh.uncached h)
  | snoc a course step ih =>
    obtain ⟨s', hs'⟩ := Option.isSome_iff_exists.mp (alive_of_undergo step (hs ▸ rfl))
    have hset := course.setting
    rw [Scene.record_append_singleton, tidings_append_singleton]
    refine (ih hs').undergo (course.kept fresh hs') ?_ ?_ step hs
    · rw [length_of_setting hset]
      exact hh
    · rw [owner_of_setting hset, rank_of_setting hset]
      exact foreign

/-- Where nothing is left to do no copy is still to come. -/
theorem Copied.not_coming (hc : Copied b n h ts) (hk : Kept b [] n s) (idle : n.Idle) :
    standing ts ≠ .coming k := by
  intro hs
  obtain ⟨s', hsched, hempty, hnone⟩ := idle
  obtain rfl : s = s' := Option.some.inj (hk.scheduler.symm.trans hsched)
  have hsubmits : submits n.events = [] := by
    refine List.filterMap_eq_nil_iff.mpr fun e he => ?_
    cases e with
    | submit t => exact absurd he (hnone t)
    | _ => rfl
  obtain ⟨t, ht, rfl, -⟩ := hc.receives k (by rw [hs]; rfl)
  rw [hsubmits, List.append_nil] at ht
  refine hc.coming _ hs (Or.inl (Decidable.byContradiction fun hin => ?_))
  have hgraph := (hk.fits.unfinished t.id).mpr ⟨List.mem_map_of_mem ht, hin⟩
  rw [TaskGraph.contains, Table.has_iff, TaskGraph.nodes_of_isEmpty hempty] at hgraph
  cases hgraph

/-- A copy that the rank knows of is to come, or it is here. -/
theorem Copied.coming_or_here (hc : Copied b n h ts) (hcached : (n.handle h).state = .remoteCached) :
    (∃ k, standing ts = .coming k) ∨ ∃ k payload, standing ts = .here k payload := by
  have htask := hc.cached.mp hcached
  cases hs : standing ts with
  | coming k => exact Or.inl ⟨k, rfl⟩
  | here k payload => exact Or.inr ⟨k, payload, rfl⟩
  | none =>
    rw [hs] at htask
    cases htask
  | lost =>
    rw [hs] at htask
    cases htask

/-- Once nothing is left to do a rank knows of a copy if and only if the last call for it was a
transfer whose receive has succeeded, and since that call no receive of an earlier transfer has
failed either; and then the buffer holds what was received. -/
theorem Course.copy_valid_iff (course : n₀.Course scenes n) (fresh : n₀.Fresh)
    (foreign : (n₀.handle h).owner ≠ n₀.rank) (hh : h < n₀.handles.length) (idle : n.Idle) :
    ((n.handle h).state = .remoteCached ↔
      ∃ k payload, Renewed (tidings h scenes) k payload) ∧
    ((n.handle h).state = .remoteCached →
      ∃ k payload, Renewed (tidings h scenes) k payload ∧ n.Filled h payload) := by
  obtain ⟨s, hs, -⟩ := id idle
  have hc := course.copied fresh foreign hh hs
  have hvalid : (n.handle h).state = .remoteCached →
      ∃ k payload, Renewed (tidings h scenes) k payload ∧ n.Filled h payload := by
    intro hcached
    rcases hc.coming_or_here hcached with ⟨k, hcoming⟩ | ⟨k, payload, hhere⟩
    · exact absurd hcoming (hc.not_coming (course.kept fresh hs) idle)
    · exact ⟨k, payload, renewed_of_here hhere, hc.filled k payload hhere⟩
  refine ⟨⟨fun hcached => ?_, ?_⟩, hvalid⟩
  · obtain ⟨k, payload, hrenewed, -⟩ := hvalid hcached
    exact ⟨k, payload, hrenewed⟩
  · rintro ⟨k, payload, hrenewed⟩
    refine hc.cached.mpr ?_
    rw [hrenewed.task]
    rfl

/-- Two ranks, the first of which owns a buffer; some connections between them may be cut. -/
def sharing (severed : List (Rank × Rank)) : World (ElementType.Value .i64) where
  cluster := { Cluster.ofSize 2 with severed }
  nodes := [{ rank := 0, size := 2, codelets := [], handles := [.new 1 0 (some ⟨7⟩)] },
    { rank := 1, size := 2, codelets := [], handles := [.new 1 0 (some ⟨7⟩)] }]

theorem fresh_sharing (severed : List (Rank × Rank)) :
    ((sharing severed).node 0).Fresh ∧ ((sharing severed).node 1).Fresh := by
  have h : ∀ r, ({ rank := r, size := 2, codelets := [], handles := [.new 1 0 (some ⟨7⟩)] } :
      Node (ElementType.Value .i64)).Fresh := by
    refine fun r => fresh_of_handles r 2 [] ?_
    intro e he
    obtain rfl := List.mem_singleton.mp he
    exact ⟨rfl, Coherence.noConfusion⟩
  exact ⟨h 0, h 1⟩

omit [Scalar α] in
/-- A rank with an empty graph and an empty queue is idle. -/
theorem idle_of_empty (h : n.scheduler.map (fun s => s.graph.isEmpty) = some true)
    (he : n.events = []) : n.Idle := by
  obtain ⟨s, hs, hempty⟩ := Option.map_eq_some_iff.mp h
  refine ⟨s, hs, hempty, fun t ht => ?_⟩
  rw [he] at ht
  cases ht

/-- A transfer whose receive has failed is repeated, and then it succeeds. -/
theorem Course.copy_valid_iff_of_repeat :
    ∃ (scenes : List (Scene (ElementType.Value .i64))) (n : Node (ElementType.Value .i64)),
      ((sharing []).node 1).Course scenes n ∧ n.Idle ∧
      tidings 0 scenes = [.asked 0, .failed 0, .asked 1, .arrived 1 (List.replicate 8 0)] ∧
      (n.handle 0).state = .remoteCached ∧
      ∃ k payload, Renewed (tidings 0 scenes) k payload ∧ n.Filled 0 payload := by
  obtain ⟨scenes, w, course, hempty, hevents, htidings, hcached⟩ := (sharing []).exists_of_play
    [.inr (.send 0 1 ⟨7⟩ [1, 2, 3]), .inl (1, .transfer 0 1), .inl (1, .take), .inl (1, .arrive 0),
      .inl (1, .take), .inl (1, .transfer 0 1), .inl (0, .transfer 0 1), .inl (0, .take),
      .inl (1, .take), .inl (1, .arrive 0), .inl (1, .take)]
    (fun scenes w => (w.node 1).scheduler.map (fun s => s.graph.isEmpty) = some true ∧
      (w.node 1).events.length = 0 ∧
      tidings 0 (scenes 1) = [.asked 0, .failed 0, .asked 1, .arrived 1 (List.replicate 8 0)] ∧
      ((w.node 1).handle 0).state = .remoteCached) (by decide +kernel)
  have idle : (w.node 1).Idle := idle_of_empty hempty (List.length_eq_zero_iff.mp hevents)
  have foreign : (((sharing []).node 1).handle 0).owner ≠ ((sharing []).node 1).rank := by decide
  exact ⟨scenes 1, w.node 1, course.node 1, idle, htidings, hcached,
    ((course.node 1).copy_valid_iff (fresh_sharing []).2 foreign (by decide) idle).2 hcached⟩

/-- A receive fails after its copy was flushed and asked for again.  The receive that was asked for
last succeeds, but the rank knows of no copy. -/
theorem copy_lost_to_earlier_failure :
    ∃ (scenes : List (Scene (ElementType.Value .i64))) (n : Node (ElementType.Value .i64)),
      ((sharing []).node 1).Fresh ∧ ((sharing []).node 1).Course scenes n ∧ n.Idle ∧
      (((sharing []).node 1).handle 0).owner ≠ ((sharing []).node 1).rank ∧
      tidings 0 scenes = [.asked 0, .flushed, .asked 2, .failed 0,
        .arrived 2 (List.replicate 8 0)] ∧
      (n.handle 0).state = .uninitialized ∧ (n.handle 0).memory = .present [0] := by
  obtain ⟨scenes, w, course, hempty, hevents, htidings, hstate, hmemory⟩ := (sharing []).exists_of_play
    [.inr (.send 0 1 ⟨7⟩ [1, 2, 3]), .inl (1, .transfer 0 1), .inl (1, .flush 0),
      .inl (1, .transfer 0 1), .inl (1, .take), .inl (1, .take), .inl (1, .take), .inl (1, .arrive 0),
      .inl (1, .take), .inl (1, .take), .inl (0, .transfer 0 1), .inl (0, .take), .inl (1, .arrive 0),
      .inl (1, .take)]
    (fun scenes w => (w.node 1).scheduler.map (fun s => s.graph.isEmpty) = some true ∧
      (w.node 1).events.length = 0 ∧ tidings 0 (scenes 1) = [.asked 0, .flushed, .asked 2, .failed 0,
        .arrived 2 (List.replicate 8 0)] ∧
      ((w.node 1).handle 0).state = .uninitialized ∧ ((w.node 1).handle 0).memory = .present [0])
    (by decide +kernel)
  exact ⟨scenes 1, w.node 1, (fresh_sharing []).2, course.node 1,
    idle_of_empty hempty (List.length_eq_zero_iff.mp hevents), by decide, htidings, hstate, hmemory⟩

end

end Node

end TiledTensor
