import TiledTensor.Proofs.Account
import TiledTensor.Proofs.Program

/-!
# What ranks know about copies

The owner of a tile keeps the ranks that it has sent it to, and every other rank keeps whether it
has a copy.  Both follow the lines that the rank has come past: `Node.Marked` says so.  Two ranks
that have come past the same lines therefore never disagree, although they do not ask each other,
and both decide alike whether a transfer is to be carried out.
-/

namespace TiledTensor

/-! ## What a line changes -/

section

variable {owner : Rank} {h k : HandleId} {r t : Rank} {ls : List Line}

theorem copyLine_transfer_ne_none_iff :
    copyLine owner h r (ls ++ [.transfer k t]) ≠ none ↔
      copyLine owner h r ls ≠ none ∨ (k = h ∧ t = r ∧ r ≠ owner) := by
  rw [copyLine_append_singleton]
  dsimp only [Line.pass]
  constructor
  · intro hn
    split at hn
    · rename_i hc
      exact Or.inr ⟨hc.1, hc.2.1, hc.2.2.1⟩
    · exact Or.inl hn
  · intro hc
    split
    · simp
    · rename_i hnot
      rcases hc with hc | ⟨hk, ht, hr⟩
      · exact hc
      · intro hn
        exact hnot ⟨hk, ht, hr, hn⟩

theorem copyLine_flush_ne_none_iff :
    copyLine owner h r (ls ++ [.flush k]) ≠ none ↔ copyLine owner h r ls ≠ none ∧ k ≠ h := by
  rw [copyLine_append_singleton]
  dsimp only [Line.pass]
  split
  · rename_i hk
    simp [hk]
  · rename_i hk
    simp [hk]

end

namespace Node

variable {α : Type} {n n' n₀ : Node α} {ls : List Line} {h : HandleId} {t : Rank}

/-- The handles are those that the rank began with, and what is marked on them follows the lines. -/
structure Marked (n n₀ : Node α) (ls : List Line) : Prop where
  rank : n.rank = n₀.rank
  size : n.size = n₀.size
  length : n.handles.length = n₀.handles.length
  tag : ∀ h, (n.handle h).tag = (n₀.handle h).tag
  owner : ∀ h, (n.handle h).owner = n₀.owner h
  count : ∀ h, (n.handle h).count = (n₀.handle h).count
  sent : ∀ h < n₀.handles.length, n₀.owner h = n₀.rank →
    ∀ r, r ∈ (n.handle h).sent ↔ copyLine (n₀.owner h) h r ls ≠ none
  cached : ∀ h < n₀.handles.length, n₀.owner h ≠ n₀.rank →
    ((n.handle h).state = .remoteCached ↔ copyLine (n₀.owner h) h n₀.rank ls ≠ none)

namespace Marked

/-- Marks do not depend on memory. -/
theorem congr (hm : n.Marked n₀ ls) (hr : n'.rank = n.rank) (hs : n'.size = n.size)
    (hl : n'.handles.length = n.handles.length) (hb : ∀ h, (n'.handle h).bare = (n.handle h).bare) :
    n'.Marked n₀ ls := by
  have hmarks : ∀ h, _ := fun h => Handle.mk.inj (hb h)
  refine ⟨hr.trans hm.rank, hs.trans hm.size, hl.trans hm.length, ?_, ?_, ?_, ?_, ?_⟩
  · intro h
    rw [(hmarks h).1, hm.tag]
  · intro h
    rw [(hmarks h).2.1, hm.owner]
  · intro h
    rw [(hmarks h).2.2.1, hm.count]
  · intro h hh ho r
    rw [(hmarks h).2.2.2.2.2, hm.sent h hh ho]
  · intro h hh ho
    rw [(hmarks h).2.2.2.2.1, hm.cached h hh ho]

theorem onlyMemory (hm : n.Marked n₀ ls) (ho : n.OnlyMemory n') : n'.Marked n₀ ls := by
  refine hm.congr ?_ ?_ ho.length ho.bare
  · rw [ho.eq]
  · rw [ho.eq]

/-- Marks depend on nothing but the handles. -/
theorem of_handles (hm : n.Marked n₀ ls) (hr : n'.rank = n.rank) (hs : n'.size = n.size)
    (hh : n'.handles = n.handles) : n'.Marked n₀ ls := by
  refine hm.congr hr hs (congrArg List.length hh) ?_
  intro h
  unfold handle
  rw [hh]

theorem post (hm : n.Marked n₀ ls) (e : Event α) : (n.post e).Marked n₀ ls :=
  hm.of_handles (post_rank n e) (post_size n e) (post_handles n e)

theorem stop (hm : n.Marked n₀ ls) (ids : List TaskId) : (n.stop.close ids).Marked n₀ ls := by
  refine hm.of_handles ?_ ?_ (stop_handles n)
  · show n.stop.rank = n.rank
    unfold Node.stop
    split <;> rfl
  · show n.stop.size = n.size
    unfold Node.stop
    split <;> rfl

/-- The marks of one handle change. -/
theorem setHandle {ls' : List Line} {e : Handle α} (hm : n.Marked n₀ ls)
    (htag : e.tag = (n.handle h).tag) (howner : e.owner = (n.handle h).owner)
    (hcount : e.count = (n.handle h).count)
    (hsent : h < n₀.handles.length → n₀.owner h = n₀.rank →
      ∀ r, r ∈ e.sent ↔ copyLine (n₀.owner h) h r ls' ≠ none)
    (hcached : h < n₀.handles.length → n₀.owner h ≠ n₀.rank →
      (e.state = .remoteCached ↔ copyLine (n₀.owner h) h n₀.rank ls' ≠ none))
    (hother : ∀ k ≠ h, ∀ r, copyLine (n₀.owner k) k r ls' ≠ none ↔
      copyLine (n₀.owner k) k r ls ≠ none) :
    (n.setHandle h e).Marked n₀ ls' := by
  constructor
  case rank => exact hm.rank
  case size => exact hm.size
  case length =>
    rw [← hm.length]
    simp [Node.setHandle]
  case tag =>
    intro k
    rw [handle_setHandle, ← hm.tag]
    split
    · rename_i hk
      rw [hk.1, htag]
    · rfl
  case owner =>
    intro k
    rw [handle_setHandle, ← hm.owner]
    split
    · rename_i hk
      rw [hk.1, howner]
    · rfl
  case count =>
    intro k
    rw [handle_setHandle, ← hm.count]
    split
    · rename_i hk
      rw [hk.1, hcount]
    · rfl
  case sent =>
    intro k hk ho r
    rw [handle_setHandle]
    by_cases hkh : k = h
    · subst hkh
      rw [if_pos ⟨rfl, hm.length ▸ hk⟩]
      exact hsent hk ho r
    · rw [if_neg fun hc => hkh hc.1, hother k hkh r]
      exact hm.sent k hk ho r
  case cached =>
    intro k hk ho
    rw [handle_setHandle]
    by_cases hkh : k = h
    · subst hkh
      rw [if_pos ⟨rfl, hm.length ▸ hk⟩]
      exact hcached hk ho
    · rw [if_neg fun hc => hkh hc.1, hother k hkh]
      exact hm.cached k hk ho

/-- Lines that tell the rank nothing new. -/
theorem relabel {ls' : List Line} (hm : n.Marked n₀ ls)
    (h : ∀ k r, n₀.owner k = n₀.rank ∨ r = n₀.rank →
      (copyLine (n₀.owner k) k r ls' ≠ none ↔ copyLine (n₀.owner k) k r ls ≠ none)) :
    n.Marked n₀ ls' := by
  refine ⟨hm.rank, hm.size, hm.length, hm.tag, hm.owner, hm.count, ?_, ?_⟩
  · intro k hk ho r
    rw [h k r (Or.inl ho), hm.sent k hk ho r]
  · intro k hk ho
    rw [h k n₀.rank (Or.inr rfl), hm.cached k hk ho]

/-- A transfer that the rank does nothing for. -/
theorem skip (hm : n.Marked n₀ ls) (hq : ¬n₀.Queues ls (.transfer h t)) :
    n.Marked n₀ (ls ++ [.transfer h t]) := by
  refine hm.relabel ?_
  intro k r hr
  rw [copyLine_transfer_ne_none_iff]
  refine or_iff_left_of_imp ?_
  rintro ⟨rfl, rfl, hne⟩ hc
  exact hq ⟨hne, hc, hr.symm.imp Eq.symm Eq.symm⟩

/-- The rank that a transfer is to marks its copy. -/
theorem receive (hm : n.Marked n₀ ls) (hne : n₀.owner h ≠ n₀.rank) :
    (n.setHandle h (n.handle h).markCached).Marked n₀ (ls ++ [.transfer h n₀.rank]) := by
  refine hm.setHandle rfl rfl rfl (fun _ ho => absurd ho hne) ?_ ?_
  · intro _ _
    rw [copyLine_transfer_ne_none_iff]
    exact iff_of_true rfl (Or.inr ⟨rfl, rfl, hne.symm⟩)
  · intro k hk r
    rw [copyLine_transfer_ne_none_iff]
    exact or_iff_left fun hc => hk hc.1.symm

/-- The owner marks whom a transfer is to. -/
theorem send (hm : n.Marked n₀ ls) (hh : h < n₀.handles.length) (ho : n₀.owner h = n₀.rank)
    (ht : t ≠ n₀.owner h) :
    (n.setHandle h { n.handle h with sent := (n.handle h).sent ++ [t] }).Marked n₀
      (ls ++ [.transfer h t]) := by
  refine hm.setHandle rfl rfl rfl ?_ (fun _ hne => absurd ho hne) ?_
  · intro _ _ r
    rw [copyLine_transfer_ne_none_iff, ← hm.sent h hh ho r]
    dsimp only
    rw [List.mem_append, List.mem_singleton]
    refine or_congr_right ⟨?_, fun hc => hc.2.1.symm⟩
    rintro rfl
    exact ⟨rfl, rfl, ht⟩
  · intro k hk r
    rw [copyLine_transfer_ne_none_iff]
    exact or_iff_left fun hc => hk hc.1.symm

/-- Writes on buffers of the rank itself are not marked as copies. -/
theorem markWritten (hm : n.Marked n₀ ls) {uses : List (HandleId × Access)}
    (hw : ∀ u ∈ uses, u.2.writes = true → n₀.owner u.1 = n₀.rank) :
    (n.markWritten uses).Marked n₀ ls := by
  induction uses generalizing n with
  | nil => exact hm
  | cons u uses ih =>
    have hrest := fun v hv => hw v (List.mem_cons_of_mem _ hv)
    rw [Node.markWritten, List.foldl_cons]
    by_cases hu : u.2.writes = true
    · rw [if_pos hu]
      refine ih ?_ hrest
      have ho := hw u List.mem_cons_self hu
      refine hm.setHandle rfl rfl rfl ?_ ?_ fun _ _ _ => Iff.rfl
      · intro hl
        exact hm.sent u.1 hl
      · intro _ h
        exact absurd ho h
    · rw [if_neg hu]
      exact ih hm hrest

end Marked

/-! ## What calls mark -/

/-- What a rank may do to a buffer is its own, or it holds a copy and only reads. -/
theorem obstacle_eq_none {a : Access} (h₀ : n.obstacle h a = none) (ha : a ≠ .scratch) :
    (n.handle h).owner = n.rank ∨ (¬a.writes = true ∧ (n.handle h).state = .remoteCached) := by
  unfold obstacle at h₀
  dsimp only at h₀
  split at h₀
  · rename_i hc
    exact Or.inl (hc.resolve_left ha)
  · split at h₀
    · cases h₀
    · rename_i hw
      split at h₀
      · rename_i hs
        exact Or.inr ⟨hw, hs⟩
      · cases h₀

/-- What a rank that has come past some lines may do to its buffers. -/
def Allowed (n : Node α) (ls : List Line) (uses : List (HandleId × Access)) : Prop :=
  ∀ u ∈ uses, n.owner u.1 ≠ n.rank →
    ¬u.2.writes = true ∧ copyLine (n.owner u.1) u.1 n.rank ls ≠ none

theorem Marked.allowed (hm : n.Marked n₀ ls) {uses : List (HandleId × Access)}
    (hu : ∀ u ∈ uses, u.1 < n.handles.length ∧ u.2 ≠ .scratch)
    (ho : ∀ u ∈ uses, n.obstacle u.1 u.2 = none) : n₀.Allowed ls uses := by
  intro u hmem hne
  obtain ⟨hb, hs⟩ := hu u hmem
  rcases obstacle_eq_none (ho u hmem) hs with h | ⟨hw, hc⟩
  · rw [hm.owner, hm.rank] at h
    exact absurd h hne
  · exact ⟨hw, (hm.cached u.1 (hm.length ▸ hb) hne).mp hc⟩

theorem Allowed.owner_of_writes {uses : List (HandleId × Access)} (ha : n.Allowed ls uses)
    {u : HandleId × Access} (hu : u ∈ uses) (hw : u.2.writes = true) : n.owner u.1 = n.rank :=
  Decidable.byContradiction fun hne => (ha u hu hne).1 hw

/-- The half of a transfer that a rank has to do. -/
def errand (n : Node α) (h : HandleId) (t : Rank) (tag : Tag) : Access × Job α :=
  if n.rank = t then (.write, .receive h (n.owner h) tag) else (.read, .send h t tag)

/-- A call that queues a task is accepted with the task. -/
theorem exists_of_map_eq_ok {p : Node α × Except TaskError TaskId}
    (h : (p.1, p.2.map fun _ => ()) = (n', .ok ())) : ∃ id, p = (n', .ok id) := by
  obtain ⟨p, r⟩ := p
  cases r with
  | error e => cases h
  | ok id => exact ⟨id, Prod.ext (Prod.mk.inj h).1 rfl⟩

theorem rejection_eq_none {op : Op α} (h₀ : n.rejection op .cpu = none) :
    ∀ u ∈ op.uses, n.obstacle u.1 u.2 = none := by
  unfold rejection at h₀
  dsimp only at h₀
  split at h₀
  · exact List.findSome?_eq_none_iff.mp (Option.or_eq_none_iff.mp h₀).2
  · cases h₀

theorem allowed_of_submit {op : Op α} (hm : n.Marked n₀ ls) (h : n.submit op = (n', .ok ()))
    (hu : ∀ u ∈ op.uses, u.1 < n.handles.length ∧ u.2 ≠ .scratch) : n₀.Allowed ls op.uses := by
  refine hm.allowed hu (rejection_eq_none ?_)
  unfold Node.submit submitOn at h
  split at h
  · cases h
  · assumption

/-- Queueing a task does not change what is marked. -/
theorem Marked.enqueue {name : String} {uses : List (HandleId × Access)} {job : Job α} {id : TaskId}
    (hm : n.Marked n₀ ls) (h : n.enqueue name uses job = (n', .ok id)) : n'.Marked n₀ ls := by
  obtain ⟨-, -, rfl⟩ := enqueue_eq_ok h
  exact hm.congr rfl rfl rfl fun _ => rfl

section

variable [Scalar α]

/-- A transfer is carried out by its two ends, unless the copy is there already. -/
theorem transfer_eq_ok (hm : n.Marked n₀ ls) (hh : h < n₀.handles.length)
    (hok : n.transfer h t = (n', .ok ())) :
    t < n.size ∧
    ((¬n₀.Queues ls (.transfer h t : Entry α) ∧ n' = n ∧ n.Marked n₀ (ls ++ [.transfer h t])) ∨
      (n₀.Queues ls (.transfer h t : Entry α) ∧ ∃ tag name id m, (n₀.handle h).tag = some tag ∧
        n.OnlyBuffers m ∧ m.shows = n.shows ∧ m.Marked n₀ (ls ++ [.transfer h t]) ∧
        m.enqueue name [(h, (n₀.errand h t tag).1)] (n₀.errand h t tag).2 = (n', .ok id))) := by
  unfold transfer at hok
  dsimp only at hok
  rw [hm.owner, hm.tag, hm.rank] at hok
  split at hok
  · cases hok
  · rename_i hsize
    refine ⟨Nat.lt_of_not_le hsize, ?_⟩
    -- the call does nothing
    have hidle : ¬n₀.Queues ls (.transfer h t : Entry α) → (n, (.ok () : Except TaskError Unit)) =
        (n', .ok ()) → (¬n₀.Queues ls (.transfer h t : Entry α) ∧ n' = n ∧
          n.Marked n₀ (ls ++ [.transfer h t])) :=
      fun hq heq => ⟨hq, (Prod.mk.inj heq).1.symm, hm.skip hq⟩
    split at hok
    · rename_i ho
      exact Or.inl (hidle (fun hq => hq.1 ho.symm) hok)
    · rename_i ho
      have hto : t ≠ n₀.owner h := fun h => ho h.symm
      split at hok
      · cases hok
      · rename_i tag htag
        split at hok
        · rename_i hr
          subst hr
          split at hok
          · rename_i hs
            refine Or.inl (hidle ?_ hok)
            intro hq
            exact (hm.cached h hh ho).mp hs hq.2.1
          · rename_i hs
            have hnone : copyLine (n₀.owner h) h n₀.rank ls = none :=
              Decidable.byContradiction fun hc => hs ((hm.cached h hh ho).mpr hc)
            have hshows : (n.setHandle h (n.handle h).markCached).shows = n.shows :=
              shows_setHandle_of_eq rfl
            have honly : n.OnlyBuffers (n.setHandle h (n.handle h).markCached) :=
              onlyBuffers_setHandle fun hp => hp
            obtain ⟨id, hp⟩ := exists_of_map_eq_ok hok
            refine Or.inr ⟨⟨hto, hnone, Or.inl rfl⟩, tag, ?_⟩
            rw [errand, if_pos rfl]
            exact ⟨_, id, _, htag, honly, hshows, hm.receive ho, hp⟩
        · rename_i hr
          split at hok
          · rename_i hro
            unfold Handle.markSent at hok
            by_cases hmem : t ∈ (n.handle h).sent
            · rw [if_pos hmem] at hok
              refine Or.inl (hidle ?_ hok)
              intro hq
              exact (hm.sent h hh hro.symm t).mp hmem hq.2.1
            · rw [if_neg hmem] at hok
              have hnone : copyLine (n₀.owner h) h t ls = none :=
                Decidable.byContradiction fun hc => hmem ((hm.sent h hh hro.symm t).mpr hc)
              have hshows : (n.setHandle h { n.handle h with
                  sent := (n.handle h).sent ++ [t] }).shows = n.shows := shows_setHandle_of_eq rfl
              have honly : n.OnlyBuffers (n.setHandle h { n.handle h with
                  sent := (n.handle h).sent ++ [t] }) := onlyBuffers_setHandle fun hp => hp
              obtain ⟨id, hp⟩ := exists_of_map_eq_ok hok
              refine Or.inr ⟨⟨hto, hnone, Or.inr hro⟩, tag, ?_⟩
              rw [errand, if_neg hr]
              exact ⟨_, id, _, htag, honly, hshows, hm.send hh hro.symm hto, hp⟩
          · rename_i hro
            refine Or.inl (hidle ?_ hok)
            rintro ⟨-, -, hq | hq⟩
            · exact hr hq
            · exact hro hq

/-- A flush makes a rank that holds a copy free it. -/
theorem flush_eq_ok (hm : n.Marked n₀ ls) (hh : h < n₀.handles.length)
    (hok : n.flush h = (n', .ok ())) :
    (¬n₀.Queues ls (.flush h : Entry α) ∧ n.OnlyBuffers n' ∧ n'.shows = n.shows ∧
      n'.Marked n₀ (ls ++ [.flush h])) ∨
    (n₀.Queues ls (.flush h : Entry α) ∧ ∃ id m, n.OnlyBuffers m ∧ m.shows = n.shows ∧
      m.Marked n₀ (ls ++ [.flush h]) ∧
      m.enqueue "evict" [(h, .write)] (.evict h) = (n', .ok id)) := by
  have hother : ∀ k ≠ h, ∀ r, copyLine (n₀.owner k) k r (ls ++ [.flush h]) ≠ none ↔
      copyLine (n₀.owner k) k r ls ≠ none := by
    intro k hk r
    rw [copyLine_flush_ne_none_iff]
    exact and_iff_left hk.symm
  have hgone : ∀ r, copyLine (n₀.owner h) h r (ls ++ [.flush h]) = none := by
    intro r
    refine Decidable.byContradiction fun hc => ?_
    exact (copyLine_flush_ne_none_iff.mp hc).2 rfl
  unfold Node.flush Handle.flush at hok
  by_cases ho : n.rank = (n.handle h).owner
  · have ho₀ : n₀.rank = n₀.owner h := by rw [← hm.owner, ← ho, hm.rank]
    rw [if_pos ho] at hok
    obtain rfl := (Prod.mk.inj hok).1
    refine Or.inl ⟨fun hq => hq.1 ho₀, onlyBuffers_setHandle fun hp => hp, shows_setHandle_of_eq rfl,
      hm.setHandle rfl rfl rfl ?_ (fun _ hne => absurd ho₀.symm hne) hother⟩
    intro _ _ r
    exact iff_of_false List.not_mem_nil fun hc => hc (hgone r)
  · have ho₀ : n₀.owner h ≠ n₀.rank := by rw [← hm.owner, ← hm.rank]; exact Ne.symm ho
    rw [if_neg ho] at hok
    have hshows : (n.setHandle h { n.handle h with state := .uninitialized }).shows = n.shows :=
      shows_setHandle_of_eq rfl
    have honly : n.OnlyBuffers (n.setHandle h { n.handle h with state := .uninitialized }) :=
      onlyBuffers_setHandle fun hp => hp
    have hmarked : (n.setHandle h { n.handle h with state := .uninitialized }).Marked n₀
        (ls ++ [.flush h]) := by
      refine hm.setHandle rfl rfl rfl (fun _ h => absurd h ho₀) ?_ hother
      intro _ _
      exact iff_of_false (by simp) fun hc => hc (hgone _)
    by_cases hs : (n.handle h).state = .remoteCached
    · rw [beq_iff_eq.mpr hs] at hok
      obtain ⟨id, hp⟩ := exists_of_map_eq_ok
        (p := (n.setHandle h { n.handle h with state := .uninitialized }).enqueue "evict"
          [(h, .write)] (.evict h)) hok
      exact Or.inr ⟨⟨ho₀.symm, (hm.cached h hh ho₀).mp hs⟩, id, _, honly, hshows, hmarked, hp⟩
    · rw [beq_eq_false_iff_ne.mpr hs] at hok
      obtain rfl := (Prod.mk.inj hok).1
      refine Or.inl ⟨?_, honly, hshows, hmarked⟩
      intro hq
      exact hs ((hm.cached h hh ho₀).mpr hq.2)

end

end Node

end TiledTensor
