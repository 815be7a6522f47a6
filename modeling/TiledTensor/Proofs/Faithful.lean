import TiledTensor.Proofs.Buffers

/-!
# Every task finds what serial execution would show

`Node.Faithful` adds to a log in order the deeds of its tasks, and that what is shown agrees with
performing them one after the other.  A task is *applied* once it has begun to change what is shown:
when it is done, or when its accessor has been granted, since the holder may write from then on.

From it follows what a task sees at its turn (`Faithful.seen`), what the holder of an accessor sees
(`Faithful.held`), and what is there in the end (`Faithful.final`).
-/

namespace TiledTensor

namespace Node

variable {α : Type} {n n' : Node α} {log : List (Task α)} {done : TaskId → Prop}
  {todo : List (Task α)} {init : Store α} {deeds : List (Deed α)} {k : TaskId} {d : Deed α}

/-- The task has begun to change buffers. -/
def Applied (n : Node α) (done : TaskId → Prop) (k : TaskId) : Prop :=
  done k ∨ ∃ a, n.accessors.find? k = some a ∧ a.phase = .granted

theorem applied_iff_of_accessors (h : n'.accessors = n.accessors) :
    n'.Applied done k ↔ n.Applied done k := by
  unfold Applied
  rw [h]

namespace Sound

theorem lt_of_applied (hs : n.Sound log done) (hk : n.Applied done k) : k < log.length := by
  rcases hk with hk | ⟨a, ha, hg⟩
  · exact hs.lt k hk
  · exact hs.lt_of_active (Or.inr (Or.inr ⟨a, ha, hg⟩))

/-- Nothing is applied before the earlier tasks that it conflicts with are done. -/
theorem done_of_applied (hs : n.Sound log done) {j : TaskId} (hp : Precedes log j k)
    (hk : n.Applied done k) : done j := by
  rcases hk with hk | ⟨a, ha, hg⟩
  · exact hs.closed j k hp hk
  · exact hs.first j k hp (Or.inr (Or.inr ⟨a, ha, hg⟩))

/-- A task that is active, but not through an accessor, has not been applied. -/
theorem not_applied_of_job {t : Task α} (hs : n.Sound log done) (hk : n.Active k) (ht : log[k]? = some t)
    (hj : t.job ≠ .grant) : ¬n.Applied done k := by
  rintro (h | ⟨a, ha, -⟩)
  · exact hs.undone k hk h
  · obtain ⟨u, hu, hju, -⟩ := hs.accessors k a ha
    rw [← Option.some.inj (ht.symm.trans hu)] at hju
    exact hj hju

end Sound

/-! ## Logs and deeds -/

theorem getElem?_of_uses (hu : deeds.map (·.uses) = log.map (·.uses)) {j : TaskId} {e : Deed α}
    (he : deeds[j]? = some e) : ∃ t, log[j]? = some t ∧ t.uses = e.uses := by
  have h := congrArg (·[j]?) hu
  simp only [List.getElem?_map, he, Option.map_some] at h
  obtain ⟨t, ht, hte⟩ := Option.map_eq_some_iff.mp h.symm
  exact ⟨t, ht, hte⟩

theorem uses_eq_of_map_eq {deeds' : List (Deed α)}
    (hu : deeds'.map (·.uses) = deeds.map (·.uses)) (j : TaskId) (e e' : Deed α)
    (he : deeds[j]? = some e) (he' : deeds'[j]? = some e') : e'.uses = e.uses := by
  have h := congrArg (·[j]?) hu
  simpa only [List.getElem?_map, he, he', Option.map_some, Option.some.injEq] using h

section

variable [Scalar α]

/-- What is shown agrees with the deeds of the log. -/
structure Faithful (n : Node α) (log : List (Task α)) (done : TaskId → Prop) (init : Store α)
    (deeds : List (Deed α)) : Prop where
  uses : deeds.map (·.uses) = log.map (·.uses)
  bounds : ∀ t ∈ log, ∀ u ∈ t.uses, u.1 < n.handles.length
  agrees : Deed.Agrees init deeds (n.Applied done) n.shows

namespace Faithful

theorem length_eq (hf : n.Faithful log done init deeds) : deeds.length = log.length := by
  simpa using congrArg List.length hf.uses

/-- No deed uses scratch memory. -/
theorem ne_scratch (hf : n.Faithful log done init deeds) (hs : n.Sound log done) (j : TaskId)
    (e : Deed α) (he : deeds[j]? = some e) : ∀ u ∈ e.uses, u.2 ≠ .scratch := by
  obtain ⟨t, ht, hte⟩ := getElem?_of_uses hf.uses he
  rw [← hte]
  exact (hs.proper j t ht).2.1

/-- Earlier deeds that conflict with one that has been applied are done. -/
theorem done_of_conflict (hf : n.Faithful log done init deeds) (hs : n.Sound log done)
    {i j : TaskId} {e f : Deed α} (he : deeds[i]? = some e) (hf' : deeds[j]? = some f) (hij : i < j)
    (hc : Conflict f.uses e.uses) (hj : n.Applied done j) : done i := by
  obtain ⟨t, ht, hte⟩ := getElem?_of_uses hf.uses he
  obtain ⟨u, hu, huf⟩ := getElem?_of_uses hf.uses hf'
  rw [← hte, ← huf] at hc
  exact hs.done_of_applied ⟨t, u, ht, hu, hij, hc.symm⟩ hj

/-- It is the turn of a task that is not done while all earlier ones that it conflicts with are. -/
theorem turn (hf : n.Faithful log done init deeds) (hs : n.Sound log done)
    (hd : deeds[k]? = some d) (hk : ¬done k) (hfirst : ∀ j, Precedes log j k → done j) :
    Deed.Turn deeds (n.Applied done) k d := by
  intro j e he hc hjk
  obtain ⟨t, ht, htd⟩ := getElem?_of_uses hf.uses hd
  obtain ⟨u, hu, hue⟩ := getElem?_of_uses hf.uses he
  rw [← htd, ← hue] at hc
  rcases Nat.lt_or_gt_of_ne hjk with hlt | hgt
  · exact iff_of_true (Or.inl (hfirst j ⟨u, t, hu, ht, hlt, hc.symm⟩)) hlt
  · refine iff_of_false ?_ (Nat.lt_asymm hgt)
    intro ha
    exact hk (hs.done_of_applied ⟨t, u, ht, hu, hgt, hc⟩ ha)

/-! ## What is seen -/

/-- At its turn a task finds in its buffers what the earlier deeds leave. -/
theorem seen (hf : n.Faithful log done init deeds) (hs : n.Sound log done)
    (hd : deeds[k]? = some d) (hk : ¬n.Applied done k) (hfirst : ∀ j, Precedes log j k → done j)
    {h : HandleId} {a : Access} (hu : (h, a) ∈ d.uses) :
    n.shows h = Deed.after init (deeds.take k) h :=
  hf.agrees.value_of_turn hd (hf.turn hs hd (fun h => hk (Or.inl h)) hfirst) hk hu
    (hf.ne_scratch hs k d hd _ hu)

/-- The holder of an accessor finds what the deeds up to its own leave. -/
theorem held (hf : n.Faithful log done init deeds) (hs : n.Sound log done)
    (hd : deeds[k]? = some d) {a : Accessor} (ha : n.accessors.find? k = some a)
    (hg : a.phase = .granted) {h : HandleId} {b : Access} (hu : (h, b) ∈ d.uses) :
    n.shows h = Deed.after init (deeds.take (k + 1)) h := by
  have hactive : n.Active k := Or.inr (Or.inr ⟨a, ha, hg⟩)
  have hturn := hf.turn hs hd (hs.undone k hactive) fun j hj => hs.first j k hj hactive
  exact hf.agrees.value_of_applied hd hturn (Or.inr ⟨a, ha, hg⟩) hu (hf.ne_scratch hs k d hd _ hu)

/-- Once all tasks are done everything is as serial execution leaves it. -/
theorem final (hf : n.Faithful log done init deeds) (hall : ∀ j < log.length, done j) :
    n.shows = Deed.after init deeds := by
  funext h
  have := hf.agrees deeds.length h (Nat.le_refl _) ?_
  · rwa [List.take_length] at this
  · intro j e he _
    have hj := lt_of_getElem?_eq_some he
    exact iff_of_true (Or.inl (hall j (hf.length_eq ▸ hj))) hj

/-! ## What keeps it -/

/-- Nothing that is shown changes, and no task is applied. -/
theorem frame {done' : TaskId → Prop} (hf : n.Faithful log done init deeds)
    (hl : n'.handles.length = n.handles.length) (hshows : n'.shows = n.shows)
    (ha : ∀ j, n'.Applied done' j ↔ n.Applied done j) : n'.Faithful log done' init deeds := by
  refine ⟨hf.uses, ?_, ?_⟩
  · intro t ht u hu
    exact hl ▸ hf.bounds t ht u hu
  · rw [hshows]
    intro m h hm hw
    refine hf.agrees m h hm ?_
    intro j e he hwe
    exact (ha j).symm.trans (hw j e he hwe)

/-- A new task is logged with its deed. -/
theorem append (hf : n.Faithful log done init deeds) (hs : n.Sound log done) {t : Task α}
    (hd : d.uses = t.uses) (hb : ∀ u ∈ t.uses, u.1 < n.handles.length) :
    n.Faithful (log ++ [t]) done init (deeds ++ [d]) := by
  refine ⟨?_, ?_, ?_⟩
  · rw [List.map_append, List.map_append, hf.uses, List.map_singleton, List.map_singleton, hd]
  · intro u hu
    rcases List.mem_append.mp hu with hu | hu
    · exact hf.bounds u hu
    · exact List.mem_singleton.mp hu ▸ hb
  · refine hf.agrees.append ?_ d
    intro j hj
    exact hf.length_eq ▸ hs.lt_of_applied hj

/-- A task is applied at its turn. -/
theorem apply {done' : TaskId → Prop} (hf : n.Faithful log done init deeds) (hs : n.Sound log done)
    (hd : deeds[k]? = some d) (hk : ¬n.Applied done k) (hfirst : ∀ j, Precedes log j k → done j)
    (hl : n'.handles.length = n.handles.length) (hshows : n'.shows = d.effect n.shows)
    (ha : ∀ j, n'.Applied done' j ↔ n.Applied done j ∨ j = k) :
    n'.Faithful log done' init deeds := by
  refine ⟨hf.uses, ?_, ?_⟩
  · intro t ht u hu
    exact hl ▸ hf.bounds t ht u hu
  · have := hf.agrees.apply hd (hf.turn hs hd (fun h => hk (Or.inl h)) hfirst) hk
      (hf.ne_scratch hs k d hd)
    rw [hshows]
    intro m h hm hw
    refine this m h hm ?_
    intro j e he hwe
    exact (ha j).symm.trans (hw j e he hwe)

/-- The holder of an accessor goes on. -/
theorem prolong (hf : n.Faithful log done init deeds) (hs : n.Sound log done)
    (hd : deeds[k]? = some d) {a : Accessor} (hacc : n.accessors.find? k = some a)
    (hg : a.phase = .granted) (e : Deed α) (he : e.uses = d.uses)
    (hl : n'.handles.length = n.handles.length) (hshows : n'.shows = e.effect n.shows)
    (ha : n'.accessors = n.accessors) :
    n'.Faithful log done init (deeds.set k (d.andThen e he)) := by
  have hactive : n.Active k := Or.inr (Or.inr ⟨a, hacc, hg⟩)
  have hturn := hf.turn hs hd (hs.undone k hactive) fun j hj => hs.first j k hj hactive
  refine ⟨?_, ?_, ?_⟩
  · rw [← hf.uses]
    apply List.ext_getElem?
    intro j
    rw [List.getElem?_map, List.getElem?_map]
    by_cases hj : k = j
    · subst hj
      rw [List.getElem?_set_self (lt_of_getElem?_eq_some hd), hd]
      rfl
    · rw [List.getElem?_set_ne hj]
  · intro t ht u hu
    exact hl ▸ hf.bounds t ht u hu
  · have := hf.agrees.prolong hd hturn (Or.inr ⟨a, hacc, hg⟩) ?_ (hf.ne_scratch hs) e he
    · rw [hshows]
      intro m h hm hw
      refine this m h hm ?_
      intro j f hf' hwf
      exact (applied_iff_of_accessors ha).symm.trans (hw j f hf' hwf)
    · intro i j f g hf' hg' hij hc hj
      exact Or.inl (hf.done_of_conflict hs hf' hg' hij hc hj)

/-! ## Other deeds in the place of some -/

/-- Deeds that have not been applied can be exchanged for others. -/
theorem revise {deeds' : List (Deed α)} (hf : n.Faithful log done init deeds)
    (hs : n.Sound log done) (hu : deeds'.map (·.uses) = deeds.map (·.uses))
    (hsame : ∀ j, n.Applied done j → deeds'[j]? = deeds[j]?) :
    n.Faithful log done init deeds' := by
  refine ⟨hu.trans hf.uses, hf.bounds, hf.agrees.revise (by simpa using congrArg List.length hu)
    (uses_eq_of_map_eq hu) hsame ?_ (hf.ne_scratch hs)⟩
  intro i j e f he hf' hij hc hj
  exact Or.inl (hf.done_of_conflict hs he hf' hij hc hj)

/-- What a task finds at its turn does not depend on the deeds that are not done. -/
theorem stable {deeds' : List (Deed α)} (hf : n.Faithful log done init deeds)
    (hs : n.Sound log done) (hu : deeds'.map (·.uses) = deeds.map (·.uses))
    (hsame : ∀ j, done j → deeds'[j]? = deeds[j]?) (hd : deeds[k]? = some d)
    (hfirst : ∀ j, Precedes log j k → done j) {h : HandleId} {a : Access} (hh : (h, a) ∈ d.uses) :
    Deed.after init (deeds'.take k) h = Deed.after init (deeds.take k) h := by
  refine Deed.after_congr done (by simpa using congrArg List.length hu) (uses_eq_of_map_eq hu) hsame
    ?_ (hf.ne_scratch hs) k h ?_
  · intro i j e f he hf' hij hc hj
    exact hf.done_of_conflict hs he hf' hij hc (Or.inl hj)
  · intro j e he hwe hj
    obtain ⟨t, ht, hte⟩ := getElem?_of_uses hf.uses he
    obtain ⟨u, hu', hud⟩ := getElem?_of_uses hf.uses hd
    have hc := hwe.conflict hh (hf.ne_scratch hs k d hd _ hh)
    rw [← hte, ← hud] at hc
    exact hfirst j ⟨t, u, ht, hu', hj, hc.symm⟩

end Faithful

end

end Node

end TiledTensor
