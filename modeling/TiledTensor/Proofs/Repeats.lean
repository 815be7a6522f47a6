import TiledTensor.Proofs.Copies

/-!
# Transfers that are repeated

All ranks call the same transfers and flushes.  When a transfer is called its two ends mark the copy
without asking each other: the owner marks whom it is sent to, the target marks what it is to
receive. A flush takes both marks away.  A receive that fails takes away only the mark of the
target, because the owner does not learn of it; and where the transport refuses a message, neither
end changes its mark.

So the marks of the owner follow what all ranks call (`Node.Course.sent_iff`), and so does whether
the target has asked for the copy since the last flush (`Node.Course.standing_iff`).  The two ends
part where a receive has failed: until the next flush the target asks for the copy again, and the
owner does not send it.
-/

namespace TiledTensor

variable {α : Type}

/-- The transfers and flushes that a rank has called. -/
def calledLines (scenes : List (Scene α)) : List Line :=
  scenes.filterMap fun g => g.happening.line?

theorem calledLines_append_singleton (scenes : List (Scene α)) (g : Scene α) :
    calledLines (scenes ++ [g]) = calledLines scenes ++ g.happening.line?.toList := by
  unfold calledLines
  rw [List.filterMap_append]
  rfl

/-- A call that is no line concerns no copy. -/
theorem copyLine_append_none {a : Happening α} {owner r : Rank} {h : HandleId} {ls : List Line}
    (ha : a.line? = none) : copyLine owner h r (ls ++ a.line?.toList) = copyLine owner h r ls := by
  rw [ha]
  exact congrArg _ (List.append_nil ls)

namespace Node

variable {n n' n₀ : Node α} {h : HandleId} {t r : Rank} {tag : Tag} {net net' : Cluster}
  {a : Happening α} {s : Scheduler α} {b : Scheduler.Record α} {ls : List Line} {ts : List Tiding}
  {scenes : List (Scene α)}

/-! ## What a transfer queues -/

/-- The jobs that a transfer queues if it is called now. -/
def transferJobs (n : Node α) (h : HandleId) (t : Rank) : List (Job α) :=
  (submits ((n.transfer h t).1.events.drop n.events.length)).map (·.job)

theorem jobs_enqueue {name : String} {uses : List (HandleId × Access)} {job : Job α}
    (hn : n.scheduler.isSome) :
    (submits ((n.enqueue name uses job).1.events.drop n.events.length)).map (·.job) = [job] := by
  rw [enqueue_events hn, List.drop_left]
  rfl

/-- A transfer queues one job at each of its ends, if the end has not marked the copy. -/
theorem transferJobs_cases (hn : n.scheduler.isSome) :
    (n.transferJobs h t = [] ∧ ∀ tag, ¬n.Asks h t tag ∧ ¬n.Sends h t tag) ∨
    (∃ tag, n.Asks h t tag ∧ n.transferJobs h t = [.receive h (n.handle h).owner tag]) ∨
    (∃ tag, n.Sends h t tag ∧ n.transferJobs h t = [.send h t tag]) := by
  have htransfer := transfers n h t
  unfold transferJobs
  generalize (n.transfer h t).1 = n' at htransfer
  cases htransfer with
  | skips nothing =>
    rw [List.drop_length]
    exact Or.inl ⟨rfl, nothing⟩
  | asks tag name asks =>
    have hm : (n.setHandle h (n.handle h).markCached).scheduler.isSome := hn
    exact Or.inr (Or.inl ⟨tag, asks, jobs_enqueue hm⟩)
  | sends tag name sends =>
    have hm : (n.setHandle h { n.handle h with sent := (n.handle h).sent ++ [t] }).scheduler.isSome :=
      hn
    exact Or.inr (Or.inr ⟨tag, sends, jobs_enqueue hm⟩)

theorem send_mem_transferJobs_iff (hn : n.scheduler.isSome) :
    .send h t tag ∈ n.transferJobs h t ↔ n.Sends h t tag := by
  rcases transferJobs_cases hn with ⟨hjobs, hnothing⟩ | ⟨tag', hasks, hjobs⟩ | ⟨tag', hsends, hjobs⟩
  · rw [hjobs]
    exact iff_of_false nofun (hnothing tag).2
  · rw [hjobs, List.mem_singleton]
    exact iff_of_false nofun fun hs => hs.other hasks.target.symm
  · rw [hjobs, List.mem_singleton]
    constructor
    · rintro ⟨⟩
      exact hsends
    · intro hs
      rw [Option.some.inj (hs.tagged.symm.trans hsends.tagged)]

theorem receive_mem_transferJobs_iff (hn : n.scheduler.isSome) :
    .receive h (n.handle h).owner tag ∈ n.transferJobs h t ↔ n.Asks h t tag := by
  rcases transferJobs_cases hn with ⟨hjobs, hnothing⟩ | ⟨tag', hasks, hjobs⟩ | ⟨tag', hsends, hjobs⟩
  · rw [hjobs]
    exact iff_of_false nofun (hnothing tag).1
  · rw [hjobs, List.mem_singleton]
    constructor
    · intro heq
      cases heq
      exact hasks
    · intro ha
      rw [Option.some.inj (ha.tagged.symm.trans hasks.tagged)]
  · rw [hjobs, List.mem_singleton]
    exact iff_of_false nofun fun ha => hsends.other ha.target.symm

/-! ## What the owner marks -/

section

variable [Scalar α]

/-- By itself a rank changes nothing of its own buffers but their memory. -/
theorem bare_of_undergo (hk : Kept b [] n s) (owned : (n.handle h).owner = n.rank)
    (ha : a.isCall = false) (hstep : n.undergo net a = some (net', n')) :
    (n'.handle h).bare = (n.handle h).bare := by
  refine (bare_or_abandons ha hstep h).resolve_right ?_
  -- what is received is a copy of another rank's buffer
  rintro ⟨i, c, r, m, e, -, hc, -, -, rfl, -⟩
  exact hk.foreign_of_arrival (List.mem_of_getElem? hc) owned

omit [Scalar α] in
/-- A transfer makes the owner mark its target. -/
theorem mem_sent_transfer_iff (owned : (n.handle h).owner = n.rank)
    (tagged : (n.handle h).tag = some tag) (hr : r < n.size) : r ∈ ((n.transfer h t).1.handle h).sent ↔
      r ∈ (n.handle h).sent ∨ (t = r ∧ r ≠ n.rank) := by
  have htransfer := transfers n h t
  generalize (n.transfer h t).1 = n' at htransfer
  cases htransfer with
  | skips nothing =>
    refine (or_iff_left_of_imp ?_).symm
    rintro ⟨rfl, hne⟩
    refine Decidable.byContradiction fun hunsent => ?_
    exact (nothing tag).2 ⟨owned, hr, hne, tagged, hunsent⟩
  | asks tag' name asks => exact absurd owned asks.foreign
  | sends tag' name sends =>
    rw [handle_of_handles (enqueue_handles _ _ _ _), handle_setHandle, if_pos ⟨rfl, lt_of_tag tagged⟩]
    dsimp only
    rw [List.mem_append, List.mem_singleton]
    refine or_congr_right ⟨?_, fun hc => hc.1.symm⟩
    rintro rfl
    exact ⟨rfl, sends.other⟩

/-- Whatever happens to the owner of a buffer, the ranks that it has marked follow the lines. -/
theorem sent_iff_of_undergo (hk : Kept b [] n s) (owned : (n.handle h).owner = n.rank)
    (tagged : (n.handle h).tag = some tag) (hr : r < n.size)
    (hstep : n.undergo net a = some (net', n'))
    (hsent : r ∈ (n.handle h).sent ↔ copyLine n.rank h r ls ≠ none) :
    r ∈ (n'.handle h).sent ↔ copyLine n.rank h r (ls ++ a.line?.toList) ≠ none := by
  have hsame : a.line? = none → (n'.handle h).sent = (n.handle h).sent →
      (r ∈ (n'.handle h).sent ↔ copyLine n.rank h r (ls ++ a.line?.toList) ≠ none) := by
    intro ha heq
    rw [copyLine_append_none ha, heq]
    exact hsent
  have hself : a.isCall = false → (n'.handle h).sent = (n.handle h).sent :=
    fun ha => sent_of_bare (bare_of_undergo hk owned ha hstep)
  cases a with
  | transfer k t =>
    obtain rfl : (n.transfer k t).1 = n' := (Prod.mk.inj (Option.some.inj hstep)).2
    show _ ↔ copyLine _ _ _ (ls ++ [.transfer k t]) ≠ none
    rw [copyLine_transfer_ne_none_iff, ← hsent]
    by_cases hk : k = h
    · subst hk
      rw [mem_sent_transfer_iff owned tagged hr]
      exact or_congr_right (and_iff_right rfl).symm
    · rw [handle_transfer_of_ne n t hk]
      exact (or_iff_left fun hc => hk hc.1).symm
  | flush k =>
    obtain rfl : (n.flush k).1 = n' := (Prod.mk.inj (Option.some.inj hstep)).2
    show _ ↔ copyLine _ _ _ (ls ++ [.flush k]) ≠ none
    rw [copyLine_flush_ne_none_iff, ← hsent]
    by_cases hk : k = h
    · subst hk
      rw [sent_flush owned (lt_of_tag tagged)]
      exact iff_of_false List.not_mem_nil fun hc => hc.2 rfl
    · rw [handle_flush_of_ne n hk]
      exact (and_iff_left hk).symm
  | take => exact hsame rfl (hself rfl)
  | work i => exact hsame rfl (hself rfl)
  | arrive i => exact hsame rfl (hself rfl)
  | _ => exact hsame rfl ((edits_of_undergo rfl hstep).marks rfl).1

/-- Through every course the owner of a buffer has marked whom the lines transfer it to. -/
theorem Course.sent_iff (course : n₀.Course scenes n) (fresh : n₀.Fresh)
    (owned : (n₀.handle h).owner = n₀.rank) (tagged : (n₀.handle h).tag = some tag) (hr : r < n₀.size)
    (hs : n.scheduler.isSome) :
    r ∈ (n.handle h).sent ↔ copyLine n₀.rank h r (calledLines scenes) ≠ none := by
  induction course with
  | nil =>
    rw [fresh.unsent h]
    exact iff_of_false List.not_mem_nil fun hc => hc rfl
  | snoc a course step ih =>
    have halive := alive_of_undergo step hs
    obtain ⟨s, hs⟩ := Option.isSome_iff_exists.mp halive
    have hset := course.setting
    rw [calledLines_append_singleton, ← rank_of_setting hset]
    have htag := (tag_of_setting hset h).trans tagged
    refine sent_iff_of_undergo (course.kept fresh hs) ?_ htag ?_ step ?_
    · rw [owner_of_setting hset, rank_of_setting hset, owned]
    · rw [size_of_setting hset]
      exact hr
    · rw [rank_of_setting hset]
      exact ih halive

/-! ## What the target has been told -/

/-- Whatever happens to the target of a transfer, whether it has asked for the copy since the last
flush follows the lines. -/
theorem standing_iff_of_undergo (hc : Copied b n h ts) (hh : h < n.handles.length)
    (hf : (n.handle h).owner ≠ n.rank) (tagged : (n.handle h).tag = some tag)
    (hr : n.rank < n.size) (hstep : n.undergo net a = some (net', n'))
    (hline : standing ts ≠ .none ↔ copyLine (n.handle h).owner h n.rank ls ≠ none) :
    standing (ts ++ (Scene.mk net n a n').tidings h) ≠ .none ↔
      copyLine (n.handle h).owner h n.rank (ls ++ a.line?.toList) ≠ none := by
  have hquiet : a.line? = none → (∀ t ∈ (Scene.mk net n a n').tidings h, t.called = false) →
      (standing (ts ++ (Scene.mk net n a n').tidings h) ≠ .none ↔
        copyLine (n.handle h).owner h n.rank (ls ++ a.line?.toList) ≠ none) := by
    intro ha ht
    rw [copyLine_append_none ha, Ne, standing_append_eq_none_iff ht]
    exact hline
  cases a with
  | transfer k t =>
    obtain rfl : (n.transfer k t).1 = n' := (Prod.mk.inj (Option.some.inj hstep)).2
    show _ ↔ copyLine _ _ _ (ls ++ [.transfer k t]) ≠ none
    rw [copyLine_transfer_ne_none_iff, ← hline]
    by_cases hk : k = h
    · subst hk
      have htransfer := transfers n k t
      generalize (n.transfer k t).1 = n' at htransfer
      cases htransfer with
      | skips nothing =>
        rw [tidings_of_state (a := .transfer k t) rfl nofun rfl, List.append_nil]
        refine (or_iff_left_of_imp ?_).symm
        rintro ⟨-, rfl, -⟩ hnone
        refine (nothing tag).1 ⟨rfl, hr, hf, tagged, ?_⟩
        rw [Ne, hc.cached, hnone]
        exact nofun
      | asks tag' name asks =>
        rw [asks.tidings hh, standing_append_singleton, Standing.pass_asked]
        exact iff_of_true nofun (Or.inr ⟨rfl, asks.target.symm, hf.symm⟩)
      | sends tag' name sends => exact absurd sends.owned hf
    · have hstate := congrArg Handle.state (handle_transfer_of_ne n t hk)
      rw [tidings_of_state (a := .transfer k t) rfl nofun hstate, List.append_nil]
      exact (or_iff_left fun hc => hk hc.1).symm
  | flush k =>
    show _ ↔ copyLine _ _ _ (ls ++ [.flush k]) ≠ none
    rw [copyLine_flush_ne_none_iff, ← hline]
    show standing (ts ++ if k = h then [.flushed] else []) ≠ .none ↔ _
    by_cases hk : k = h
    · rw [if_pos hk, standing_append_singleton, Standing.pass_flushed]
      exact iff_of_false (fun hc => hc rfl) fun hc => hc.2 hk
    · rw [if_neg hk, List.append_nil]
      exact (and_iff_left hk).symm
  | arrive i => exact hquiet rfl called_of_arrive
  | _ => exact hquiet rfl nofun

/-- Through every course a rank has asked for a copy since the last flush if and only if the lines
transfer the copy to it. -/
theorem Course.standing_iff (course : n₀.Course scenes n) (fresh : n₀.Fresh)
    (foreign : (n₀.handle h).owner ≠ n₀.rank) (tagged : (n₀.handle h).tag = some tag)
    (hr : n₀.rank < n₀.size) (hs : n.scheduler.isSome) :
    standing (tidings h scenes) ≠ .none ↔
      copyLine (n₀.handle h).owner h n₀.rank (calledLines scenes) ≠ none := by
  induction course with
  | nil => exact iff_of_false (fun hc => hc rfl) fun hc => hc rfl
  | snoc a course step ih =>
    have halive := alive_of_undergo step hs
    obtain ⟨s, hs⟩ := Option.isSome_iff_exists.mp halive
    have hset := course.setting
    have hh := lt_of_tag tagged
    have hc := course.copied fresh foreign hh hs
    rw [calledLines_append_singleton, tidings_append_singleton, ← rank_of_setting hset,
      ← owner_of_setting hset]
    have htag := (tag_of_setting hset h).trans tagged
    refine standing_iff_of_undergo hc ?_ ?_ htag ?_ step ?_
    · rw [length_of_setting hset]
      exact hh
    · rw [owner_of_setting hset, rank_of_setting hset]
      exact foreign
    · rw [rank_of_setting hset, size_of_setting hset]
      exact hr
    · rw [owner_of_setting hset, rank_of_setting hset]
      exact ih halive

end

end Node

namespace World

/-- The ranks of a world have been set up, and they share a buffer of rank `o`. -/
structure Shared (w : World α) (h : HandleId) (o : Rank) (tag : Tag) : Prop where
  fresh : ∀ r < w.size, (w.node r).Fresh
  rank : ∀ r < w.size, (w.node r).rank = r
  size : ∀ r < w.size, (w.node r).size = w.size
  owner : ∀ r < w.size, ((w.node r).handle h).owner = o
  tagged : ∀ r < w.size, ((w.node r).handle h).tag = some tag

variable [Scalar α] {w w₀ : World α} {scenes : Rank → List (Scene α)} {h : HandleId} {o t : Rank}
  {tag : Tag}

/-- Where two ranks have called the same transfers and flushes, the owner of a buffer has marked the
other rank if and only if that rank has asked for its copy since the last flush. -/
theorem Course.sent_iff_standing (course : w₀.Course scenes w) (shared : w₀.Shared h o tag)
    (ho : o < w₀.size) (ht : t < w₀.size) (hne : t ≠ o)
    (hlines : calledLines (scenes o) = calledLines (scenes t))
    (hso : (w.node o).scheduler.isSome) (hst : (w.node t).scheduler.isSome) :
    t ∈ ((w.node o).handle h).sent ↔ standing (tidings h (scenes t)) ≠ .none := by
  have owned : ((w₀.node o).handle h).owner = (w₀.node o).rank := by
    rw [shared.owner o ho, shared.rank o ho]
  have foreign : ((w₀.node t).handle h).owner ≠ (w₀.node t).rank := by
    rw [shared.owner t ht, shared.rank t ht]
    exact hne.symm
  have hwithin : t < (w₀.node o).size := by
    rw [shared.size o ho]
    exact ht
  have hrank : (w₀.node t).rank < (w₀.node t).size := by
    rw [shared.rank t ht, shared.size t ht]
    exact ht
  have hsent := (course.node o).sent_iff (shared.fresh o ho) owned (shared.tagged o ho) hwithin hso
  have hstanding :=
    (course.node t).standing_iff (shared.fresh t ht) foreign (shared.tagged t ht) hrank hst
  rw [hsent, hstanding, shared.owner t ht, shared.rank t ht, shared.rank o ho, hlines]

/-- The owner of a buffer sends it for a transfer unless it has marked the target. -/
theorem Course.send_iff_unsent (course : w₀.Course scenes w) (shared : w₀.Shared h o tag)
    (ho : o < w₀.size) (ht : t < w₀.size) (hne : t ≠ o) (hso : (w.node o).scheduler.isSome) :
    .send h t tag ∈ (w.node o).transferJobs h t ↔ t ∉ ((w.node o).handle h).sent := by
  have hset := (course.node o).setting
  rw [Node.send_mem_transferJobs_iff hso]
  refine ⟨fun hs => hs.unsent, fun hu => ⟨?_, ?_, ?_, ?_, hu⟩⟩
  · rw [Node.owner_of_setting hset, Node.rank_of_setting hset, shared.owner o ho, shared.rank o ho]
  · rw [Node.size_of_setting hset, shared.size o ho]
    exact ht
  · rw [Node.rank_of_setting hset, shared.rank o ho]
    exact hne
  · rw [Node.tag_of_setting hset, shared.tagged o ho]

/-- The target of a transfer receives the buffer unless it knows of a copy. -/
theorem Course.receive_iff_vacant (course : w₀.Course scenes w) (shared : w₀.Shared h o tag)
    (ht : t < w₀.size) (hne : t ≠ o) (hst : (w.node t).scheduler.isSome) :
    .receive h o tag ∈ (w.node t).transferJobs h t ↔
      ((w.node t).handle h).state ≠ .remoteCached := by
  have hset := (course.node t).setting
  have howner : ((w.node t).handle h).owner = o := by
    rw [Node.owner_of_setting hset, shared.owner t ht]
  rw [← howner, Node.receive_mem_transferJobs_iff hst]
  refine ⟨fun ha => ha.vacant, fun hv => ⟨?_, ?_, ?_, ?_, hv⟩⟩
  · rw [Node.rank_of_setting hset, shared.rank t ht]
  · rw [Node.size_of_setting hset, shared.size t ht]
    exact ht
  · rw [howner, Node.rank_of_setting hset, shared.rank t ht]
    exact hne.symm
  · rw [Node.tag_of_setting hset, shared.tagged t ht]

/-- A transfer that is repeated on all ranks is matched unless a receive of the copy has failed
since the last transfer that asked for it.  Then, and only then, the owner has marked a rank that
knows of no copy; every other rank that it has marked is to receive the copy, or holds what it has
received.

That a rank is to receive the copy says that a receive of it is pending and not yet reported.  It
does not say that a message is on its way: when the owner's send was refused, the receive goes on
waiting, and only its failure, once the transport gives it up, lets the next transfer ask again. -/
theorem Course.repeat_matched_iff (course : w₀.Course scenes w) (shared : w₀.Shared h o tag)
    (ho : o < w₀.size) (ht : t < w₀.size) (hne : t ≠ o)
    (hlines : calledLines (scenes o) = calledLines (scenes t))
    (hso : (w.node o).scheduler.isSome) (hst : (w.node t).scheduler.isSome) :
    ((.send h t tag ∈ (w.node o).transferJobs h t ↔ .receive h o tag ∈ (w.node t).transferJobs h t) ↔
      ¬GivenUp (tidings h (scenes t))) ∧
    (t ∈ ((w.node o).handle h).sent ∧ ((w.node t).handle h).state ≠ .remoteCached ↔
      GivenUp (tidings h (scenes t))) ∧
    (t ∈ ((w.node o).handle h).sent → ¬GivenUp (tidings h (scenes t)) →
      (∃ k, standing (tidings h (scenes t)) = .coming k ∧
        ¬(w.node t).Reported (Scene.record (scenes t)) k) ∨
      ∃ k payload, Renewed (tidings h (scenes t)) k payload ∧ (w.node t).Filled h payload) := by
  have foreign : ((w₀.node t).handle h).owner ≠ (w₀.node t).rank := by
    rw [shared.owner t ht, shared.rank t ht]
    exact hne.symm
  obtain ⟨s, hs⟩ := Option.isSome_iff_exists.mp hst
  have hc := (course.node t).copied (shared.fresh t ht) foreign (Node.lt_of_tag (shared.tagged t ht)) hs
  have hmarked := course.sent_iff_standing shared ho ht hne hlines hso hst
  have hlost : t ∈ ((w.node o).handle h).sent ∧ ((w.node t).handle h).state ≠ .remoteCached ↔
      GivenUp (tidings h (scenes t)) := by
    rw [hmarked, Ne, Ne, hc.cached, ← standing_eq_lost_iff]
    cases standing (tidings h (scenes t)) <;> simp [Standing.task?]
  have hheld : ((w.node t).handle h).state = .remoteCached → t ∈ ((w.node o).handle h).sent := by
    rw [hmarked, hc.cached]
    intro htask hnone
    rw [hnone] at htask
    cases htask
  refine ⟨?_, hlost, fun hsent hkept => ?_⟩
  · rw [course.send_iff_unsent shared ho ht hne hso, course.receive_iff_vacant shared ht hne hst,
      ← hlost]
    constructor
    · rintro hiff ⟨hsent, hvacant⟩
      exact hiff.mpr hvacant hsent
    · intro hnot
      constructor
      · exact fun hunsent hcached => hunsent (hheld hcached)
      · exact fun hvacant hsent => hnot ⟨hsent, hvacant⟩
  · have hcached : ((w.node t).handle h).state = .remoteCached :=
      Decidable.byContradiction fun hstate => hkept (hlost.mp ⟨hsent, hstate⟩)
    rcases hc.coming_or_here hcached with ⟨k, hcoming⟩ | ⟨k, payload, hhere⟩
    · exact Or.inl ⟨k, hcoming, hc.coming k hcoming⟩
    · exact Or.inr ⟨k, payload, renewed_of_here hhere, hc.filled k payload hhere⟩

omit [Scalar α] in
theorem shared_sharing (severed : List (Rank × Rank)) : (Node.sharing severed).Shared 0 0 ⟨7⟩ := by
  have htwo : ∀ {p : Rank → Prop}, p 0 → p 1 → ∀ r < (Node.sharing severed).size, p r := by
    intro p h₀ h₁ r hr
    match r, hr with
    | 0, _ => exact h₀
    | 1, _ => exact h₁
  have hfresh := Node.fresh_sharing severed
  exact ⟨htwo hfresh.1 hfresh.2, htwo rfl rfl, htwo rfl rfl, htwo rfl rfl, htwo rfl rfl⟩

/-- A receive has failed, all ranks flush the buffer, and the transfer is matched again. -/
theorem Course.repeat_matched_iff_of_flush :
    ∃ (scenes : Rank → List (Scene (ElementType.Value .i64)))
      (w : World (ElementType.Value .i64)),
      (Node.sharing []).Course scenes w ∧ calledLines (scenes 0) = calledLines (scenes 1) ∧
      tidings 0 (scenes 1) = [.asked 0, .failed 0, .flushed] ∧
      (.send 0 1 ⟨7⟩ ∈ (w.node 0).transferJobs 0 1 ↔
        .receive 0 0 ⟨7⟩ ∈ (w.node 1).transferJobs 0 1) := by
  obtain ⟨scenes, w, course, hlines, htidings, halive₀, halive₁⟩ := (Node.sharing []).exists_of_play
    [.inr (.send 0 1 ⟨7⟩ [1, 2, 3]), .inl (0, .transfer 0 1), .inl (1, .transfer 0 1), .inl (1, .take),
      .inl (1, .arrive 0), .inl (0, .flush 0), .inl (1, .flush 0)]
    (fun scenes w => calledLines (scenes 0) = calledLines (scenes 1) ∧
      tidings 0 (scenes 1) = [.asked 0, .failed 0, .flushed] ∧
      (w.node 0).scheduler.isSome ∧ (w.node 1).scheduler.isSome) (by decide +kernel)
  refine ⟨scenes, w, course, hlines, htidings, ?_⟩
  refine (course.repeat_matched_iff (shared_sharing []) (by decide) (by decide) (by decide) hlines
    halive₀ halive₁).1.mpr ?_
  rw [← standing_eq_lost_iff, htidings]
  decide

/-- The transport refuses a message, and the receive of it is withdrawn.  Both failures are reported
and nothing is left to do, but when the transfer is repeated only the target takes part in it. -/
theorem transfer_unmatched_after_failure :
    ∃ (scenes : Rank → List (Scene (ElementType.Value .i64)))
      (w : World (ElementType.Value .i64)),
      (Node.sharing [(0, 1)]).Course scenes w ∧ (Node.sharing [(0, 1)]).Shared 0 0 ⟨7⟩ ∧
      calledLines (scenes 0) = calledLines (scenes 1) ∧ (w.node 0).Idle ∧ (w.node 1).Idle ∧
      (w.node 0).barriers.find? 0 =
        some (.passed (some (.transfer ("send " ++ Tag.text ⟨7⟩ ++ " to 1") (.noSuchRank 1 2)))) ∧
      (w.node 1).barriers.find? 0 =
        some (.passed (some (.transfer ("recv " ++ Tag.text ⟨7⟩ ++ " from 0") (.closed 0 ⟨7⟩)))) ∧
      1 ∈ ((w.node 0).handle 0).sent ∧ ((w.node 1).handle 0).state = .uninitialized ∧
      (w.node 0).transferJobs 0 1 = [] ∧ .receive 0 0 ⟨7⟩ ∈ (w.node 1).transferJobs 0 1 := by
  obtain ⟨scenes, w, course, hlines, ⟨hempty₀, hevents₀⟩, ⟨hempty₁, hevents₁⟩, hbarrier₀, hbarrier₁,
      hsent, hstate, hnone, hjobs⟩ := (Node.sharing [(0, 1)]).exists_of_play
    [.inl (0, .transfer 0 1), .inl (1, .transfer 0 1), .inl (0, .wait), .inl (0, .take),
      .inl (0, .take), .inl (0, .take), .inl (1, .take), .inl (1, .retire [] ⟨⟨7⟩, ⟨8⟩⟩),
      .inl (1, .take), .inl (1, .take), .inl (1, .arrive 0), .inl (1, .wait), .inl (1, .take),
      .inl (1, .take)]
    (fun scenes w => calledLines (scenes 0) = calledLines (scenes 1) ∧
      ((w.node 0).scheduler.map (fun s => s.graph.isEmpty) = some true ∧ (w.node 0).events.length = 0) ∧
      ((w.node 1).scheduler.map (fun s => s.graph.isEmpty) = some true ∧ (w.node 1).events.length = 0) ∧
      (w.node 0).barriers.find? 0 =
        some (.passed (some (.transfer ("send " ++ Tag.text ⟨7⟩ ++ " to 1") (.noSuchRank 1 2)))) ∧
      (w.node 1).barriers.find? 0 =
        some (.passed (some (.transfer ("recv " ++ Tag.text ⟨7⟩ ++ " from 0") (.closed 0 ⟨7⟩)))) ∧
      1 ∈ ((w.node 0).handle 0).sent ∧ ((w.node 1).handle 0).state = .uninitialized ∧
      ((w.node 0).transferJobs 0 1).length = 0 ∧
      ∃ j ∈ (w.node 1).transferJobs 0 1, j = .receive 0 0 ⟨7⟩) (by decide +kernel)
  have idle₀ := Node.idle_of_empty hempty₀ (List.length_eq_zero_iff.mp hevents₀)
  have idle₁ := Node.idle_of_empty hempty₁ (List.length_eq_zero_iff.mp hevents₁)
  obtain ⟨_, hreceive, rfl⟩ := hjobs
  exact ⟨scenes, w, course, shared_sharing _, hlines, idle₀, idle₁, hbarrier₀, hbarrier₁, hsent,
    hstate, List.length_eq_zero_iff.mp hnone, hreceive⟩

end World

end TiledTensor
