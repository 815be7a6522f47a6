import TiledTensor.Proofs.Ownership

/-!
# What becomes of the memory of a buffer

A rank never frees the memory of a buffer that it owns, and it never stores into the memory of
another rank's: there memory changes as the rank receives a copy, frees one, or gives up one that
failed to arrive, and it is allocated as zeros by whatever opens it first (`Scene.Alters`).  A
computation that reads another rank's buffer is shown a view of it that it cannot write.
-/

namespace TiledTensor

variable {α : Type} [Scalar α]

/-! ## Opening buffers -/

namespace Handle

variable {e e' e'' : Handle α}

/-- The memory of a buffer is as it was, or it has been allocated where there was none. -/
def Opens (e e' : Handle α) : Prop := e'.memory = e.memory ∨ e'.memory = e.access.1.memory

theorem memory_access (he : e.memory ≠ .absent) : e.access.1.memory = e.memory := by
  unfold access
  split
  · rfl
  · rfl
  · contradiction

theorem memory_access_ne (e : Handle α) : e.access.1.memory ≠ .absent := by
  unfold access
  split
  · rename_i h
    rw [h]
    exact nofun
  · rename_i h
    rw [h]
    exact nofun
  · split <;> exact nofun

theorem memory_access_congr (hm : e'.memory = e.memory) (hc : e'.count = e.count) :
    e'.access.1.memory = e.access.1.memory := by
  by_cases he : e.memory = .absent
  · unfold access
    rw [hm, hc, he]
    dsimp only
    split <;> rfl
  · rw [memory_access he, memory_access (hm ▸ he), hm]

theorem Opens.trans (h : e.Opens e') (hc : e'.count = e.count) (h' : e'.Opens e'') : e.Opens e'' := by
  rcases h' with h' | h'
  · unfold Opens
    rw [h']
    exact h
  · refine Or.inr (h'.trans ?_)
    rcases h with h | h
    · exact memory_access_congr h hc
    · rw [memory_access (h ▸ memory_access_ne e), h]

end Handle

namespace Node

variable {n n' m : Node α} {net net' : Cluster} {h j : HandleId} {t : Task α} {tasks : List (Task α)}
  {a : Happening α} {own : Prop}

/-- A step neither frees the memory of a buffer, nor stores into it unless the buffer is the rank's
own. -/
structure Spares (own : Prop) (h : HandleId) (n n' : Node α) : Prop where
  count : (n'.handle h).count = (n.handle h).count
  lasts : (n.handle h).memory ≠ .absent → (n'.handle h).memory ≠ .absent
  opens : ¬own → (n.handle h).Opens (n'.handle h)

namespace Spares

theorem of_memory (hc : (n'.handle h).count = (n.handle h).count)
    (hm : (n'.handle h).memory = (n.handle h).memory) : Spares own h n n' :=
  ⟨hc, fun hn => hm ▸ hn, fun _ => Or.inl hm⟩

theorem refl (n : Node α) : Spares own h n n := of_memory rfl rfl

theorem trans (h₁ : Spares own h n m) (h₂ : Spares own h m n') : Spares own h n n' :=
  ⟨h₂.count.trans h₁.count, fun hn => h₂.lasts (h₁.lasts hn),
    fun ho => (h₁.opens ho).trans h₁.count (h₂.opens ho)⟩

theorem of_handles (hh : n'.handles = n.handles) : Spares own h n n' := by
  have := handle_of_handles hh h
  exact of_memory (congrArg _ this) (congrArg _ this)

theorem congr (h₁ : Spares own h n m) (hh : n'.handles = m.handles) : Spares own h n n' :=
  h₁.trans (of_handles hh)

theorem setHandle_of_ne (hj : j ≠ h) (e : Handle α) : Spares own h n (n.setHandle j e) := by
  have hsame : (n.setHandle j e).handle h = n.handle h := by
    rw [handle_setHandle, if_neg fun hc => hj hc.1.symm]
  exact of_memory (congrArg _ hsame) (congrArg _ hsame)

theorem setHandle_of_eq {e : Handle α} (hc : e.count = (n.handle j).count)
    (hm : e.memory = (n.handle j).memory) : Spares own h n (n.setHandle j e) := by
  refine of_memory ?_ ?_ <;> rw [handle_setHandle] <;> split
  · rename_i hj
    rw [hc, ← hj.1]
  · rfl
  · rename_i hj
    rw [hm, ← hj.1]
  · rfl

theorem openHandle (n : Node α) (j : HandleId) : Spares own h n (n.openHandle j).1 := by
  rw [openHandle_fst]
  by_cases hj : h = j ∧ j < n.handles.length
  · obtain ⟨rfl, hlt⟩ := hj
    have hsame : (n.setHandle h (n.handle h).access.1).handle h = (n.handle h).access.1 := by
      rw [handle_setHandle, if_pos ⟨rfl, hlt⟩]
    refine ⟨?_, fun _ => ?_, fun _ => Or.inr ?_⟩
    · rw [hsame]
      unfold Handle.access
      split
      · rfl
      · rfl
      · split <;> rfl
    · rw [hsame]
      exact Handle.memory_access_ne _
    · rw [hsame]
  · have hsame : (n.setHandle j (n.handle j).access.1).handle h = n.handle h := by
      rw [handle_setHandle, if_neg hj]
    exact of_memory (congrArg _ hsame) (congrArg _ hsame)

/-- What is stored into a buffer of the rank itself does not free its memory. -/
theorem store (ho : j = h → own) (block : List α) :
    Spares own h n (n.setHandle j ((n.handle j).store block)) := by
  have hstore : ∀ e : Handle α, (e.store block).count = e.count ∧
      (e.memory ≠ .absent → (e.store block).memory ≠ .absent) := by
    intro e
    unfold Handle.store
    split
    · exact ⟨rfl, fun _ => nofun⟩
    · exact ⟨rfl, id⟩
  by_cases hj : j = h
  · subst hj
    refine ⟨?_, ?_, fun hn => absurd (ho rfl) hn⟩ <;> rw [handle_setHandle] <;> split
    · exact (hstore _).1
    · rfl
    · exact (hstore _).2
    · exact id
  · exact setHandle_of_ne hj _

theorem poison (ho : j = h → own) : Spares own h n (n.setHandle j (n.handle j).poison) := by
  by_cases hj : j = h
  · subst hj
    refine ⟨?_, fun hn => ?_, fun hn => absurd (ho rfl) hn⟩ <;> rw [handle_setHandle] <;> split
    · rfl
    · rfl
    · exact nofun
    · exact hn
  · exact setHandle_of_ne hj _

theorem markWritten (n : Node α) (uses : List (HandleId × Access)) :
    Spares own h n (n.markWritten uses) := by
  induction uses generalizing n with
  | nil => exact refl n
  | cons u uses ih =>
    rw [Node.markWritten, List.foldl_cons]
    split
    · have hmark : Spares own h n (n.setHandle u.1 (n.handle u.1).markWritten) :=
        setHandle_of_eq rfl rfl
      exact hmark.trans (ih _)
    · exact ih n

end Spares

theorem Touches.spares {ws : HandleId → Prop} (ht : n.Touches ws n') (hw : ws h → own) :
    Spares own h n n' := by
  induction ht with
  | refl => exact .refl n
  | opens j touches ih => exact ih.trans (.openHandle _ j)
  | stores j block written touches ih =>
    exact ih.trans (.store (fun hj : j = h => hw (hj ▸ written)) block)
  | poisons j written touches ih => exact ih.trans (.poison fun hj : j = h => hw (hj ▸ written))

/-- Calls free no memory, and store only through an accessor. -/
theorem Edits.spares (he : n.Edits a n')
    (hw : ∀ k c, n.held k = some c → c.access.writes = true → c.handle = h → own) :
    Spares own h n n' := by
  cases he with
  | idle flush transfer handles => exact .of_handles handles
  | writes uses own flush transfer handles => exact (Spares.markWritten n uses).congr handles
  | opens k c held => exact .openHandle n c.handle
  | stores k c block held writes =>
    exact (Spares.openHandle n c.handle).trans (.store (hw k c held writes) block)
  | asks j t tag name asks =>
    refine Spares.congr ?_ (enqueue_handles _ _ _ _)
    exact .setHandle_of_eq rfl rfl
  | sends j t tag name sends =>
    refine Spares.congr ?_ (enqueue_handles _ _ _ _)
    exact .setHandle_of_eq rfl rfl
  | forgets j nothing =>
    refine .setHandle_of_eq ?_ ?_ <;> unfold Handle.flush <;> split <;> rfl
  | drops j foreign held =>
    refine Spares.congr ?_ (enqueue_handles _ _ _ _)
    exact .setHandle_of_eq rfl rfl

/-- A task that is started frees no memory unless it is to free it. -/
theorem Starts.spares (hs : n.Starts net t net' n') (hj : t.job ≠ .evict h) : Spares own h n n' := by
  rcases hs.handles with hsame | ⟨j, dst, tag, -, hopen⟩ | ⟨j, e, job, -, hfree⟩
  · exact .of_handles hsame
  · exact (Spares.openHandle n j).congr hopen
  · have hne : j ≠ h := fun heq => hj (heq ▸ job)
    exact (Spares.setHandle_of_ne hne e).congr hfree

theorem spares_startAll (hj : ∀ t ∈ tasks, t.job ≠ .evict h) :
    Spares own h n (startAll net n tasks).2 :=
  startAll_of_starts (.refl n) (fun ht _ hs hm => hm.trans (hs.spares (hj _ ht)))
    fun _ hm => hm.congr rfl

/-- The end of a receive concerns the memory of no other buffer. -/
theorem Finishes.spares_of_ne {c : Arrival} {r : Receipt} (hf : n.Finishes c r n')
    (hne : c.handle ≠ h) : Spares own h n n' := by
  cases hf with
  | accepts payload block opened fits =>
    exact ((Spares.openHandle n c.handle).trans (.setHandle_of_ne hne _)).congr (post_handles _ _)
  | abandons _ m e fails =>
    have hm : Spares own h n m := by
      cases fails with
      | refused e => exact .refl n
      | payload payload block opened misfit => exact .openHandle n c.handle
    have hsame := handle_abandon_of_ne (n := m) (e := e) hne
    exact hm.trans (.of_memory (congrArg _ hsame) (congrArg _ hsame))
  | unopened payload f unopened => exact .openHandle n c.handle

/-- Of the memory of another rank's buffer, a task that is started does nothing but free it. -/
theorem Starts.memory (hs : n.Starts net t net' n') (hf : (n.handle h).owner ≠ n.rank)
    (ht : n.Sanctions t) : (n'.handle h).memory = (n.handle h).memory ∨
      (n'.handle h).memory = .absent ∧ t.job = .evict h := by
  rcases hs.handles with hsame | ⟨j, dst, tag, job, hopen⟩ | ⟨j, e, job, freed, hfree⟩
  · exact Or.inl (congrArg Handle.memory (handle_of_handles hsame h))
  · -- what is sent is the rank's own
    have hmay := ht.1.resolve_left (by rw [job]; exact nofun)
    unfold May at hmay
    rw [job] at hmay
    rw [handle_of_handles hopen, openHandle_fst, handle_setHandle, if_neg]
    · exact Or.inl rfl
    · exact fun hc => hf (hc.1 ▸ hmay.2)
  · rw [handle_of_handles hfree, handle_setHandle]
    split
    · rename_i hj
      refine Or.inr ⟨?_, hj.1 ▸ job⟩
      unfold Handle.evict at freed
      split at freed
      · cases freed
      · cases freed
        rfl
    · exact Or.inl rfl

theorem memory_startAll (hf : (n.handle h).owner ≠ n.rank) (ht : ∀ t ∈ tasks, n.Sanctions t) :
    ((startAll net n tasks).2.handle h).memory = (n.handle h).memory ∨
      ((startAll net n tasks).2.handle h).memory = .absent ∧ ∃ t ∈ tasks, t.job = .evict h := by
  refine startAll_of_starts (P := fun m => (m.handle h).memory = (n.handle h).memory ∨
    (m.handle h).memory = .absent ∧ ∃ t ∈ tasks, t.job = .evict h) (Or.inl rfl) ?_ fun _ hm => hm
  intro net net' m m' t hin hset hs hm
  have hforeign : (m.handle h).owner ≠ m.rank := by
    rw [owner_of_setting hset, rank_of_setting hset]
    exact hf
  rcases hs.memory hforeign ((ht t hin).of_setting hset) with heq | ⟨habsent, hjob⟩
  · rw [heq]
    exact hm
  · exact Or.inr ⟨habsent, t, hin, hjob⟩

end Node

/-! ## The memory of copies -/

/-- What becomes of the memory of another rank's buffer in a scene. -/
inductive Scene.Alters (h : HandleId) (g : Scene α) : Prop
  /-- Nothing, or it is allocated by what opens it first. -/
  | opens (opens : (g.before.handle h).Opens (g.after.handle h))
  /-- A task that frees the copy is started. -/
  | evicts (e : Event α) (r : Reaction α) (t : Task α) (taken : g.taken = some (e, r))
      (started : t ∈ r.started) (job : t.job = .evict h) (memory : (g.after.handle h).memory = .absent)
  /-- A receive ends with a payload that fits. -/
  | receives (i : Nat) (c : Arrival) (payload : Payload) (block : List α)
      (happening : g.happening = .arrive i) (arrival : g.before.arrivals[i]? = some c)
      (handle : c.handle = h) (receipt : g.net.receipts.find? c.ticket = some (.delivered payload))
      (opened : (g.before.handle h).access.2 = .ok block)
      (fits : block.length * Scalar.size α = payload.length)
      (memory : (g.after.handle h).memory = .present (Scalar.decodeBlock block.length payload))
  /-- A receive is refused, or ends with a payload that does not fit. -/
  | abandons (i : Nat) (c : Arrival) (r : Receipt) (happening : g.happening = .arrive i)
      (arrival : g.before.arrivals[i]? = some c) (handle : c.handle = h)
      (receipt : g.net.receipts.find? c.ticket = some r)
      (failed : ∀ payload, r = .delivered payload → ∀ block,
        (g.before.handle h).access.2 = .ok block → block.length * Scalar.size α ≠ payload.length)
      (memory : (g.after.handle h).memory = .absent)

namespace Node

variable {n n' : Node α} {net net' : Cluster} {h : HandleId} {a : Happening α} {i : Nat}

theorem alters_take (hl : n.Licit) (hf : (n.handle h).owner ≠ n.rank) (ht : n.Takes net net' n') :
    (Scene.mk net n .take n').Alters h := by
  cases ht with
  | faults s e events f scheduler queue react =>
    refine .opens (Or.inl ?_)
    show (Node.handle _ h).memory = (n.handle h).memory
    rw [handle_of_handles (stop_handles _)]
    rfl
  | reacts s e events p scheduler queue react =>
    have hsanctions : ∀ t ∈ p.2.started, Sanctions { n with events, scheduler := some p.1 } t :=
      fun t hin => hl.sanctions_of_react scheduler queue react (Or.inl hin)
    have hall : let n' := (startAll net { n with events, scheduler := some p.1 } p.2.started).2
        (n'.handle h).memory = (n.handle h).memory ∨
          (n'.handle h).memory = .absent ∧ ∃ t ∈ p.2.started, t.job = .evict h :=
      memory_startAll (n := { n with events, scheduler := some p.1 }) hf hsanctions
    rcases hall with heq | ⟨habsent, t, hin, hjob⟩
    · exact .opens (Or.inl heq)
    · exact .evicts e p.2 t (Scene.taken_of_react scheduler queue react) hin hjob habsent

omit [Scalar α] in
/-- Giving up a copy frees its memory, unless it is poisoned. -/
theorem memory_abandon {c : Arrival} {e : TaskError} (hf : (n.handle c.handle).owner ≠ n.rank)
    (hh : c.handle < n.handles.length) : ((n.abandon c e).handle c.handle).memory = .absent ∨
      ((n.abandon c e).handle c.handle).memory = (n.handle c.handle).memory ∧
        (n.handle c.handle).memory = .poisoned := by
  by_cases hp : (n.handle c.handle).memory = .poisoned
  · rw [abandon_of_poisoned hf hp, handle_setHandle, if_pos ⟨rfl, hh⟩]
    exact Or.inr ⟨rfl, hp⟩
  · rw [abandon_of_unpoisoned hf hp, handle_of_handles (post_handles _ _), handle_setHandle,
      if_pos ⟨rfl, hh⟩]
    exact Or.inl rfl

theorem alters_arrive {c : Arrival} {r : Receipt} (hf : (n.handle h).owner ≠ n.rank)
    (hh : h < n.handles.length) (hc : n.arrivals[i]? = some c) (hch : c.handle = h)
    (hr : net.receipts.find? c.ticket = some r)
    (hfin : Finishes { n with arrivals := n.arrivals.eraseIdx i } c r n') :
    (Scene.mk net n (.arrive i) n').Alters h := by
  subst hch
  -- what opening the buffer comes to does not depend on the receives that are under way
  have hopen : ((Node.openHandle { n with arrivals := n.arrivals.eraseIdx i } c.handle).1.handle
      c.handle) = (n.handle c.handle).access.1 := by
    rw [openHandle_fst, handle_setHandle, if_pos ⟨rfl, hh⟩]
    rfl
  cases hfin with
  | accepts payload block opened fits =>
    refine .receives i c payload block rfl hc rfl hr opened fits ?_
    show (Node.handle _ c.handle).memory = _
    rw [handle_of_handles (post_handles _ _), handle_setHandle, hopen, if_pos]
    · have hpresent : (n.handle c.handle).access.1.memory = .present block := by
        have hok : (n.handle c.handle).access.2 = .ok block := opened
        unfold Handle.access at hok ⊢
        split at hok
        · cases hok
        · rename_i old hold
          cases hok
          exact hold
        · split at hok
          · rename_i hroom
            cases hok
            rw [if_pos hroom]
          · cases hok
      unfold Handle.store
      rw [hpresent]
      dsimp only
      rw [overlay_of_length (Scalar.length_decodeBlock block.length payload).symm]
    · rw [openHandle_fst]
      exact ⟨rfl, (List.length_set).symm ▸ hh⟩
  | abandons _ m e fails =>
    have hset : m.setting = n.setting := fails.onlyMemory.setting
    have howner : (m.handle c.handle).owner ≠ m.rank := by
      rw [owner_of_setting hset, rank_of_setting hset]
      exact hf
    have hlen : c.handle < m.handles.length := length_of_setting hset ▸ hh
    rcases memory_abandon (e := e) howner hlen with habsent | ⟨hsame, hp⟩
    · refine .abandons i c r rfl hc rfl hr ?_ habsent
      rintro payload rfl block hok
      cases fails with
      | payload _ block' opened misfit =>
        obtain rfl : block' = block := Except.ok.inj (opened.symm.trans hok)
        exact misfit
    · refine .opens ?_
      cases fails with
      | refused e => exact Or.inl hsame
      | payload payload block opened misfit =>
        refine Or.inr (hsame.trans ?_)
        rw [hopen]
  | unopened payload f unopened =>
    refine .opens (Or.inr ?_)
    show (Node.handle _ c.handle).memory = _
    rw [hopen]

/-- A rank neither frees a buffer that it owns, nor stores into one that it does not. -/
theorem Licit.memory (hl : n.Licit) (step : n.undergo net a = some (net', n')) (h : HandleId) :
    ((n.handle h).owner = n.rank →
      (n.handle h).memory ≠ .absent → (n'.handle h).memory ≠ .absent) ∧
    ((n.handle h).owner ≠ n.rank → (Scene.mk net n a n').Alters h) := by
  have hspares : Spares ((n.handle h).owner = n.rank) h n n' →
      ((n.handle h).owner = n.rank →
        (n.handle h).memory ≠ .absent → (n'.handle h).memory ≠ .absent) ∧
      ((n.handle h).owner ≠ n.rank → (Scene.mk net n a n').Alters h) :=
    fun hs => ⟨fun _ => hs.lasts, fun hf => .opens (hs.opens hf)⟩
  cases undergoes_of_undergo step with
  | calls call calls edits =>
    refine hspares (edits.spares fun k c hheld hw hch => ?_)
    exact hch ▸ (hl.accessors k c (held_eq_some_iff.mp hheld).1).2 hw
  | takes takes =>
    refine ⟨fun ho => ?_, fun hf => alters_take hl hf takes⟩
    cases takes with
    | faults s e events f scheduler queue react =>
      have hs : Spares True h n (Node.stop { n with events }) := .of_handles (stop_handles _)
      exact hs.lasts
    | reacts s e events p scheduler queue react =>
      have hs : Spares True h { n with events, scheduler := some p.1 }
          (Node.startAll net { n with events, scheduler := some p.1 } p.2.started).2 := by
        refine spares_startAll fun t ht hj => ?_
        have hm := (hl.sanctions_of_react scheduler queue react (Or.inl ht)).1.resolve_left
          (by rw [hj]; exact nofun)
        unfold May at hm
        rw [hj] at hm
        exact hm.2 ho
      exact hs.lasts
  | works i w queued =>
    have ht : Touches (fun j => (n.handle j).owner = n.rank) { n with work := n.work.eraseIdx i }
        (Node.run { n with work := n.work.eraseIdx i } w.op) :=
      touches_run _ fun u hu => (hl.work w (List.mem_of_getElem? queued) u hu).2
    have hready : Spares ((n.handle h).owner = n.rank) h n { n with work := n.work.eraseIdx i } :=
      .of_handles rfl
    exact hspares ((hready.trans (ht.spares id)).congr (post_handles _ _))
  | arrives i c r pending receipt finishes =>
    obtain ⟨hlt, hforeign⟩ := hl.arrivals c (List.mem_of_getElem? pending)
    by_cases hch : c.handle = h
    · refine ⟨fun ho => absurd (hch ▸ ho) hforeign, fun hf => ?_⟩
      exact alters_arrive hf (hch ▸ hlt) pending hch receipt finishes
    · have hcame : Spares ((n.handle h).owner = n.rank) h n
          { n with arrivals := n.arrivals.eraseIdx i } := .of_handles rfl
      exact hspares (hcame.trans (finishes.spares_of_ne hch))

/-- What is not written is shown to a computation in a view that it cannot write. -/
theorem shared_of_openAll {operands : List Operand} {views : List (View α)}
    (hv : (n.openAll operands).2 = some views) {k : Nat} {b : HandleId} {x : Access}
    (hk : operands[k]? = some (.data b x)) (hx : x.writes = false) :
    ∃ block, views[k]? = some (.shared block) := by
  induction operands generalizing n views k with
  | nil => cases hk
  | cons o operands ih =>
    cases o with
    | scratch bytes =>
      unfold openAll at hv
      split at hv
      · obtain ⟨rest, hrest, rfl⟩ := Option.map_eq_some_iff.mp hv
        cases k with
        | zero => cases hk
        | succ k => exact ih hrest hk
      · cases hv
    | data j y =>
      unfold openAll at hv
      split at hv
      · cases hv
      · rename_i m block hm
        split at hv
        · rename_i m' rest hm'
          cases hv
          cases k with
          | zero =>
            cases hk
            rw [hx]
            exact ⟨_, rfl⟩
          | succ k =>
            have hrest : (m.openAll operands).2 = some rest := by rw [hm']
            exact ih hrest hk
        · cases hv

end Node

end TiledTensor
