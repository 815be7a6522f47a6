import TiledTensor.Proofs.Custody

/-!
# The life of a rank

Over its life a rank makes buffers, is called, and does by itself what there is to do.  Calls may be
rejected, and what the rank does by itself may fail (`Node.Life`).

The state of a buffer on its owner is changed by calls alone: a write that passes its checks,
whatever comes of it, and a flush.  So it is the fold of these marks, `Mark.coherence`, and says no
more than where the last write and the last flush stand in the life of the rank.
-/

namespace TiledTensor

variable {α : Type}

/-! ## Marks on a buffer -/

/-- What marks a buffer on its owner. -/
inductive Mark
  /-- A call that writes the buffer has passed its checks. -/
  | written
  | flushed
  deriving DecidableEq

namespace Mark

/-- What a mark makes of a state. -/
def pass : Coherence → Mark → Coherence
  | _, written => .localValid
  | .localValid, flushed => .globallyVisible
  | s, flushed => s

/-- The state of a buffer on its owner after some marks. -/
def coherence (ms : List Mark) : Coherence := ms.foldl pass .uninitialized

/-- The buffer has been written after it was last flushed. -/
def Unflushed (ms : List Mark) : Prop := ∃ before after, ms = before ++ written :: after ∧ flushed ∉ after

variable {ms : List Mark}

theorem unflushed_append_written (ms : List Mark) : Unflushed (ms ++ [written]) := ⟨ms, [], rfl, nofun⟩

theorem not_unflushed_append_flushed (ms : List Mark) : ¬Unflushed (ms ++ [flushed]) := by
  rintro ⟨before, after, heq, hout⟩
  rcases List.eq_nil_or_concat after with rfl | ⟨rest, m, rfl⟩
  · cases (List.append_inj' heq rfl).2
  · rw [List.concat_eq_append, ← List.cons_append, ← List.append_assoc] at heq
    cases (List.append_inj' heq rfl).2
    rw [List.concat_eq_append] at hout
    exact hout (List.mem_append_right _ List.mem_cons_self)

/-- The state tells whether the buffer was ever written, and whether it was flushed since. -/
theorem coherence_spec (ms : List Mark) :
    coherence ms = .uninitialized ∧ written ∉ ms ∧ ¬Unflushed ms ∨
    coherence ms = .localValid ∧ written ∈ ms ∧ Unflushed ms ∨
    coherence ms = .globallyVisible ∧ written ∈ ms ∧ ¬Unflushed ms := by
  induction ms using List.reverseRecOn with
  | nil =>
    refine Or.inl ⟨rfl, nofun, ?_⟩
    rintro ⟨before, after, heq, -⟩
    cases (List.append_eq_nil_iff.mp heq.symm).2
  | append_singleton ms m ih =>
    have hfold : coherence (ms ++ [m]) = pass (coherence ms) m := List.foldl_append
    rw [hfold]
    cases m with
    | written =>
      refine Or.inr (Or.inl ⟨?_, List.mem_append_right _ List.mem_cons_self, unflushed_append_written ms⟩)
      cases coherence ms <;> rfl
    | flushed =>
      have hmem : written ∈ ms ++ [flushed] ↔ written ∈ ms := by
        rw [List.mem_append, List.mem_singleton, or_iff_left Mark.noConfusion]
      rw [hmem]
      have hnot := not_unflushed_append_flushed ms
      rcases ih with ⟨hs, hw, -⟩ | ⟨hs, hw, -⟩ | ⟨hs, hw, -⟩ <;> rw [hs]
      · exact Or.inl ⟨rfl, hw, hnot⟩
      · exact Or.inr (Or.inr ⟨rfl, hw, hnot⟩)
      · exact Or.inr (Or.inr ⟨rfl, hw, hnot⟩)

theorem coherence_ne_remoteCached (ms : List Mark) : coherence ms ≠ .remoteCached := by
  rcases coherence_spec ms with ⟨hs, -⟩ | ⟨hs, -⟩ | ⟨hs, -⟩ <;> rw [hs] <;> exact nofun

theorem coherence_eq_localValid_iff : coherence ms = .localValid ↔ Unflushed ms := by
  rcases coherence_spec ms with ⟨hs, -, hu⟩ | ⟨hs, -, hu⟩ | ⟨hs, -, hu⟩ <;> rw [hs]
  · exact iff_of_false nofun hu
  · exact iff_of_true rfl hu
  · exact iff_of_false nofun hu

theorem coherence_eq_globallyVisible_iff :
    coherence ms = .globallyVisible ↔ written ∈ ms ∧ ¬Unflushed ms := by
  rcases coherence_spec ms with ⟨hs, hw, hu⟩ | ⟨hs, hw, hu⟩ | ⟨hs, hw, hu⟩ <;> rw [hs]
  · exact iff_of_false nofun fun h => hw h.1
  · exact iff_of_false nofun fun h => h.2 hu
  · exact iff_of_true rfl ⟨hw, hu⟩

/-- Once a state has been left, the buffer is never again as it was when it was made. -/
theorem foldl_pass_ne {s : Coherence} (hs : s ≠ .uninitialized) (ms : List Mark) :
    ms.foldl pass s ≠ .uninitialized := by
  induction ms generalizing s with
  | nil => exact hs
  | cons m ms ih =>
    refine ih ?_
    cases m with
    | written => cases s <;> exact nofun
    | flushed =>
      cases s with
      | uninitialized => contradiction
      | _ => exact nofun

end Mark

/-- How a call marks a buffer. -/
def Scene.marks (h : HandleId) (g : Scene α) : List Mark :=
  match g.happening with
  | .submit op device =>
    if g.before.rejection op device = none ∧ ∃ u ∈ op.uses, u.1 = h ∧ u.2.writes = true then [.written]
    else []
  | .acquire j a =>
    if j = h ∧ a.writes = true ∧ g.before.obstacle j a = none then [.written] else []
  | .flush j => if j = h then [.flushed] else []
  | _ => []

/-! ## Lives -/

/-- How a buffer is made: with nothing in it, or on its owner with the elements that it holds. -/
inductive Birth (α : Type)
  | empty (count : Nat) (owner : Rank) (tag : Option Tag)
  | filled (block : List α)

/-- A buffer that is made on a rank. -/
def Birth.handle (r : Rank) : Birth α → Handle α
  | empty count owner tag => .new count owner tag
  | filled block => .ofBlock block r

/-- One thing in the life of a rank: a buffer is made, or something happens. -/
inductive Chapter (α : Type)
  | birth (before : Node α) (b : Birth α)
  | scene (g : Scene α)

/-- How a buffer is marked.  One that is made with its elements counts as written. -/
def Chapter.marks (h : HandleId) : Chapter α → List Mark
  | .birth before (.filled _) => if before.handles.length = h then [.written] else []
  | .birth _ (.empty ..) => []
  | .scene g => g.marks h

def marks (h : HandleId) (chapters : List (Chapter α)) : List Mark :=
  chapters.flatMap (Chapter.marks h)

theorem marks_append_singleton (h : HandleId) (chapters : List (Chapter α)) (c : Chapter α) :
    marks h (chapters ++ [c]) = marks h chapters ++ c.marks h := by
  unfold marks
  rw [List.flatMap_append, List.flatMap_singleton]

/-- The lives of a rank.  Calls name buffers that have been made. -/
inductive Node.Life [Scalar α] : List (Chapter α) → Node α → Prop
  | start (rank size : Nat) (codelets : List String) : Life [] { rank, size, codelets }
  | birth {chapters n} (b : Birth α) (life : Life chapters n) :
      Life (chapters ++ [.birth n b]) (n.addHandle (b.handle n.rank)).1
  | scene {chapters n net net' n'} (a : Happening α) (life : Life chapters n)
      (known : ∀ h ∈ a.names, h < n.handles.length) (step : n.undergo net a = some (net', n')) :
      Life (chapters ++ [.scene ⟨net, n, a, n'⟩]) n'

namespace Node

variable {n n' m : Node α} {net net' : Cluster} {h j : HandleId} {a : Happening α}

/-! ## What changes the state of a buffer -/

/-- There is no buffer beyond the ones that have been made. -/
theorem handle_of_le (hh : n.handles.length ≤ h) : n.handle h = default := by
  unfold handle
  rw [List.getD_eq_getElem?_getD, List.getElem?_eq_none hh]
  rfl

theorem state_markWritten {uses : List (HandleId × Access)}
    (known : ∀ u ∈ uses, u.1 < n.handles.length) : ((n.markWritten uses).handle h).state =
      if ∃ u ∈ uses, u.1 = h ∧ u.2.writes = true then .localValid else (n.handle h).state := by
  induction uses generalizing n with
  | nil => rfl
  | cons u uses ih =>
    have hrest := fun v hv => known v (List.mem_cons_of_mem u hv)
    rw [Node.markWritten, List.foldl_cons]
    simp only [List.exists_mem_cons_iff]
    by_cases hw : u.2.writes = true
    · rw [if_pos hw]
      have hlen : (n.setHandle u.1 (n.handle u.1).markWritten).handles.length = n.handles.length :=
        List.length_set
      refine (ih (by rw [hlen]; exact hrest)).trans ?_
      rw [handle_setHandle]
      by_cases hu : u.1 = h
      · rw [if_pos (show _ ∨ _ from Or.inl ⟨hu, hw⟩)]
        split
        · rfl
        · rw [if_pos ⟨hu.symm, known u List.mem_cons_self⟩]
          rfl
      · rw [if_neg fun hc : h = u.1 ∧ _ => hu hc.1.symm]
        simp only [hu, false_and, false_or]
    · rw [if_neg hw]
      refine (ih hrest).trans ?_
      simp only [hw, Bool.false_eq_true, and_false, false_or]

section

variable [Scalar α]

omit [Scalar α] in
theorem sent_abandon (n : Node α) (c : Arrival) (e : TaskError)
    (hf : (n.handle c.handle).owner ≠ n.rank) :
    ((n.abandon c e).handle c.handle).sent = (n.handle c.handle).sent := by
  by_cases hp : (n.handle c.handle).memory = .poisoned
  · rw [abandon_of_poisoned hf hp, handle_setHandle]
    split <;> rfl
  · rw [abandon_of_unpoisoned hf hp, handle_of_handles (post_handles _ _), handle_setHandle]
    split <;> rfl

/-- What a rank does by itself leaves of a buffer all but its memory as it is, except that another
rank's buffer may be given up. -/
theorem Licit.bare (hl : n.Licit) (ha : a.isCall = false) (step : n.undergo net a = some (net', n'))
    (h : HandleId) : (n'.handle h).bare = (n.handle h).bare ∨
      (n.handle h).owner ≠ n.rank ∧ (n'.handle h).state = .uninitialized ∧
        (n'.handle h).sent = (n.handle h).sent := by
  refine (bare_or_abandons ha step h).imp_right ?_
  rintro ⟨i, c, r, m, e, rfl, hc, -, fails, rfl, rfl⟩
  obtain ⟨hlt, hforeign⟩ := hl.arrivals c (List.mem_of_getElem? hc)
  have hset : m.setting = n.setting := fails.onlyMemory.setting
  have hf : (m.handle c.handle).owner ≠ m.rank := by
    rw [owner_of_setting hset, rank_of_setting hset]
    exact hforeign
  refine ⟨hforeign, state_abandon hf (length_of_setting hset ▸ hlt), ?_⟩
  rw [sent_abandon m c e hf]
  exact sent_of_bare (fails.onlyMemory.bare c.handle)

omit [Scalar α] in
theorem state_submitOn {op : Op α} {device : Device}
    (known : ∀ u ∈ op.uses, u.1 < n.handles.length) :
    ((n.submitOn op device).1.handle h).state =
      ((Scene.mk net n (.submit op device) n').marks h).foldl Mark.pass (n.handle h).state := by
  unfold Scene.marks submitOn
  dsimp only
  cases hrej : n.rejection op device with
  | some e => rfl
  | none =>
    dsimp only
    rw [handle_of_handles (enqueue_handles _ _ _ _), state_markWritten known]
    by_cases hw : ∃ u ∈ op.uses, u.1 = h ∧ u.2.writes = true
    · rw [if_pos hw, if_pos ⟨rfl, hw⟩]
      cases (n.handle h).state <;> rfl
    · rw [if_neg hw, if_neg fun hc => hw hc.2]
      rfl

omit [Scalar α] in
theorem state_acquire {b : Access} (known : j < n.handles.length) :
    ((n.acquire j b).1.handle h).state =
      ((Scene.mk net n (.acquire j b) n').marks h).foldl Mark.pass (n.handle h).state := by
  have hmark : ((n.markWritten [(j, b)]).handle h).state =
      if ∃ u ∈ [(j, b)], u.1 = h ∧ u.2.writes = true then .localValid else (n.handle h).state :=
    state_markWritten (List.forall_mem_singleton.mpr known)
  simp only [List.exists_mem_cons_iff, List.not_mem_nil, false_and, exists_false, or_false] at hmark
  have hqueued := handle_of_handles
    (enqueue_handles (n.markWritten [(j, b)]) "acquire" [(j, b)] .grant) h
  unfold Scene.marks acquire
  dsimp only
  split
  · rename_i hb
    rw [if_neg fun hc => writes_ne_scratch hc.2.1 hb]
    rfl
  · split
    · rename_i e he
      rw [he, if_neg fun hc => Option.some_ne_none e hc.2.2]
      rfl
    · rename_i h₀
      have hstate : ((n.markWritten [(j, b)]).handle h).state =
          (if j = h ∧ b.writes = true ∧ n.obstacle j b = none then [Mark.written] else []).foldl
            Mark.pass (n.handle h).state := by
        rw [hmark]
        by_cases hc : j = h ∧ b.writes = true
        · rw [if_pos hc, if_pos ⟨hc.1, hc.2, h₀⟩]
          cases (n.handle h).state <;> rfl
        · rw [if_neg hc, if_neg fun hc' => hc ⟨hc'.1, hc'.2.1⟩]
          rfl
      rw [← hstate, ← hqueued]
      split
      · rename_i m id hok
        rw [hok]
        rfl
      · rename_i m e hok
        rw [hok]

/-- The state of a buffer on its owner follows the marks. -/
theorem Licit.state (hl : n.Licit) (known : ∀ h ∈ a.names, h < n.handles.length)
    (step : n.undergo net a = some (net', n')) (ho : (n.handle h).owner = n.rank) :
    (n'.handle h).state = ((Scene.mk net n a n').marks h).foldl Mark.pass (n.handle h).state := by
  have hown : a.isCall = false → (n'.handle h).state = (n.handle h).state := fun ha =>
    state_of_bare ((hl.bare ha step h).resolve_right fun hc => hc.1 ho)
  cases a with
  | submit op device =>
    cases step
    exact state_submitOn fun u hu => known u.1 (List.mem_map_of_mem hu)
  | acquire j b =>
    cases step
    exact state_acquire (known j List.mem_cons_self)
  | release k =>
    unfold Node.undergo at step
    dsimp only at step
    split at step
    · cases step
      exact congrArg Handle.state (handle_of_handles (post_handles _ _) h)
    · cases step
  | look k =>
    obtain ⟨c, -, heq⟩ := Option.map_eq_some_iff.mp step
    cases heq
    exact state_of_bare ((onlyMemory_openHandle n c.handle).bare h)
  | put k block =>
    obtain ⟨m, hm, heq⟩ := Option.map_eq_some_iff.mp step
    cases heq
    obtain ⟨c, -, hw⟩ := Option.bind_eq_some_iff.mp hm
    exact state_of_bare ((onlyMemory_enterWrite hw).bare h)
  | wait =>
    cases step
    have hsame : n.wait.1.handles = n.handles := by
      unfold Node.wait
      split
      · exact post_handles _ _
      · rfl
    exact congrArg Handle.state (handle_of_handles hsame h)
  | leave b =>
    cases step
    rfl
  | transfer j r =>
    cases step
    by_cases hj : j = h
    · subst hj
      have ht := transfers n j r
      generalize (n.transfer j r).1 = n' at ht
      cases ht with
      | skips nothing => rfl
      | asks tag name asks => exact absurd ho asks.foreign
      | sends tag name sends =>
        rw [handle_of_handles (enqueue_handles _ _ _ _), handle_setHandle]
        split <;> rfl
    · exact congrArg Handle.state (handle_transfer_of_ne n r hj)
  | flush j =>
    cases step
    unfold Scene.marks
    dsimp only
    by_cases hj : j = h
    · subst hj
      rw [if_pos rfl, handle_flush, handle_setHandle, if_pos ⟨rfl, known j List.mem_cons_self⟩,
        flush_of_owner ho.symm]
      dsimp only
      cases (n.handle j).state <;> rfl
    · rw [if_neg hj, handle_flush_of_ne n hj]
      rfl
  | retire hs tags =>
    cases step
    exact congrArg Handle.state (handle_of_handles (enqueue_handles _ _ _ _) h)
  | take => exact hown rfl
  | work i => exact hown rfl
  | arrive i => exact hown rfl

/-- Of another rank's buffer a rank knows that it has a copy, or nothing. -/
theorem Licit.state_of_foreign (hl : n.Licit) (step : n.undergo net a = some (net', n'))
    (hf : (n.handle h).owner ≠ n.rank) : (n'.handle h).state = (n.handle h).state ∨
      (n'.handle h).state = .uninitialized ∨ (n'.handle h).state = .remoteCached := by
  by_cases ha : a.isCall = true
  · cases a with
    | transfer j r =>
      cases step
      exact (state_transfer n j h r).imp_right Or.inr
    | flush j =>
      cases step
      by_cases hj : j = h
      · subst hj
        rw [handle_flush, handle_setHandle]
        split
        · rw [flush_of_ne_owner hf.symm]
          exact Or.inr (Or.inl rfl)
        · exact Or.inl rfl
      · rw [handle_flush_of_ne n hj]
        exact Or.inl rfl
    | take => cases ha
    | work i => cases ha
    | arrive i => cases ha
    | _ => exact Or.inl (((edits_of_undergo ha step).marks rfl).2 hf)
  · rcases hl.bare (Bool.eq_false_iff.mpr ha) step h with hbare | ⟨-, hs, -⟩
    · exact Or.inl (state_of_bare hbare)
    · exact Or.inr (Or.inl hs)

/-- Only the owner notes to whom it has sent a buffer, and never itself. -/
theorem Licit.sent (hl : n.Licit) (step : n.undergo net a = some (net', n')) (h : HandleId) :
    (n'.handle h).sent = (n.handle h).sent ∨ (n'.handle h).sent = [] ∨
      (n.handle h).owner = n.rank ∧ ∃ t ≠ n.rank, (n'.handle h).sent = (n.handle h).sent ++ [t] := by
  by_cases ha : a.isCall = true
  · cases a with
    | transfer j r =>
      cases step
      refine (sent_transfer n j h r).imp_right ?_
      rintro ⟨owned, other, hsent⟩
      exact Or.inr ⟨owned, r, other, hsent⟩
    | flush j =>
      cases step
      by_cases hj : j = h
      · subst hj
        rw [handle_flush, handle_setHandle]
        split
        · unfold Handle.flush
          split
          · exact Or.inr (Or.inl rfl)
          · exact Or.inl rfl
        · exact Or.inl rfl
      · rw [handle_flush_of_ne n hj]
        exact Or.inl rfl
    | take => cases ha
    | work i => cases ha
    | arrive i => cases ha
    | _ => exact Or.inl ((edits_of_undergo ha step).marks rfl).1
  · rcases hl.bare (Bool.eq_false_iff.mpr ha) step h with hbare | ⟨-, -, hs⟩
    · exact Or.inl (sent_of_bare hbare)
    · exact Or.inl hs

/-! ## What holds throughout a life -/

variable {chapters : List (Chapter α)}

/-- What is known of a buffer at a moment of the life of a rank. -/
structure Coherent (chapters : List (Chapter α)) (n : Node α) (h : HandleId) : Prop where
  state : (n.handle h).owner = n.rank → (n.handle h).state = Mark.coherence (marks h chapters)
  foreign : (n.handle h).owner ≠ n.rank →
    (n.handle h).state = .uninitialized ∨ (n.handle h).state = .remoteCached
  sent : (n.handle h).owner ∉ (n.handle h).sent
  unsent : (n.handle h).owner ≠ n.rank → (n.handle h).sent = []
  /-- What has been written stays so, and what has been allocated is not freed. -/
  lasts : (n.handle h).owner = n.rank → ∀ g, .scene g ∈ chapters →
    ((g.before.handle h).state ≠ .uninitialized → (n.handle h).state ≠ .uninitialized) ∧
    ((g.before.handle h).memory ≠ .absent → (n.handle h).memory ≠ .absent)
  alters : (n.handle h).owner ≠ n.rank → ∀ g, .scene g ∈ chapters → g.Alters h

/-- Nothing has been marked, and nothing has happened, where there is no buffer yet. -/
theorem Life.unborn (life : Life chapters n) (hh : n.handles.length ≤ h) :
    marks h chapters = [] ∧ ∀ g, .scene g ∈ chapters →
      g.before.handle h = default ∧ g.after.handle h = default := by
  induction life with
  | start rank size codelets => exact ⟨rfl, fun g hg => absurd hg List.not_mem_nil⟩
  | @birth chapters n b life ih =>
    have hlen : (n.addHandle (b.handle n.rank)).1.handles.length = n.handles.length + 1 := by
      show (n.handles ++ [_]).length = _
      rw [List.length_append]
      rfl
    rw [hlen] at hh
    obtain ⟨hmarks, hscenes⟩ := ih (by omega)
    refine ⟨?_, fun g hg => hscenes g ?_⟩
    · rw [marks_append_singleton, hmarks]
      cases b with
      | empty count owner tag => rfl
      | filled block => exact if_neg (by omega)
    · rcases List.mem_append.mp hg with hg | hg
      · exact hg
      · cases List.mem_singleton.mp hg
  | @scene chapters n net net' n' a life known step ih =>
    have hlen := length_of_setting (setting_of_undergo step)
    obtain ⟨hmarks, hscenes⟩ := ih (hlen ▸ hh)
    have hout : h ∉ a.names := fun hin => Nat.not_le_of_lt (known h hin) (hlen ▸ hh)
    refine ⟨?_, fun g hg => ?_⟩
    · rw [marks_append_singleton, hmarks]
      show Scene.marks h _ = []
      unfold Scene.marks
      cases a with
      | submit op device =>
        refine if_neg ?_
        rintro ⟨-, u, hu, rfl, -⟩
        exact hout (List.mem_map_of_mem hu)
      | acquire j b =>
        refine if_neg ?_
        rintro ⟨rfl, -⟩
        exact hout List.mem_cons_self
      | flush j =>
        refine if_neg ?_
        rintro rfl
        exact hout List.mem_cons_self
      | _ => rfl
    · rcases List.mem_append.mp hg with hg | hg
      · exact hscenes g hg
      · cases List.mem_singleton.mp hg
        exact ⟨handle_of_le (hlen ▸ hh), handle_of_le hh⟩

theorem Life.licit (life : Life chapters n) : n.Licit := by
  induction life with
  | start rank size codelets =>
    refine ⟨nofun, ?_, nofun, nofun, nofun⟩
    rintro _ ⟨⟩ k t ht
    cases ht
  | birth b life ih => exact ih.append _
  | scene a life known step ih => exact ih.undergo known step

/-- A buffer as it is made. -/
theorem Coherent.born (life : Life chapters n) (b : Birth α) :
    Coherent (chapters ++ [.birth n b]) (n.addHandle (b.handle n.rank)).1 n.handles.length := by
  have hnew : (n.addHandle (b.handle n.rank)).1.handle n.handles.length = b.handle n.rank := by
    show (n.handles ++ [_]).getD n.handles.length default = _
    rw [List.getD_eq_getElem?_getD, List.getElem?_concat_length]
    rfl
  have hrank : (n.addHandle (b.handle n.rank)).1.rank = n.rank := rfl
  obtain ⟨hmarks, hscenes⟩ := life.unborn (Nat.le_refl n.handles.length)
  have hscenes : ∀ g, .scene g ∈ chapters ++ [.birth n b] →
      g.before.handle n.handles.length = default ∧ g.after.handle n.handles.length = default := by
    intro g hg
    rcases List.mem_append.mp hg with hg | hg
    · exact hscenes g hg
    · cases List.mem_singleton.mp hg
  have hsent : (b.handle n.rank).sent = [] := by cases b <;> rfl
  constructor
  case state =>
    intro _
    rw [hnew, marks_append_singleton, hmarks]
    cases b with
    | empty count owner tag => rfl
    | filled block =>
      show Coherence.localValid = Mark.coherence (if _ = _ then _ else _)
      rw [if_pos rfl]
      rfl
  case foreign =>
    intro hf
    rw [hnew] at hf ⊢
    cases b with
    | empty count owner tag => exact Or.inl rfl
    | filled block => exact absurd rfl hf
  case sent =>
    rw [hnew, hsent]
    exact nofun
  case unsent =>
    intro _
    rw [hnew, hsent]
  case lasts =>
    intro _ g hg
    rw [(hscenes g hg).1]
    exact ⟨fun hs => absurd rfl hs, fun hm => absurd rfl hm⟩
  case alters =>
    intro _ g hg
    refine .opens (Or.inl ?_)
    rw [(hscenes g hg).1, (hscenes g hg).2]

/-- Other buffers are not concerned when one is made. -/
theorem Coherent.addHandle (hc : Coherent chapters n h) (hh : h ≠ n.handles.length) (b : Birth α) :
    Coherent (chapters ++ [.birth n b]) (n.addHandle (b.handle n.rank)).1 h := by
  have hsame : (n.addHandle (b.handle n.rank)).1.handle h = n.handle h := by
    show (n.handles ++ [_]).getD h default = n.handles.getD h default
    rw [List.getD_eq_getElem?_getD, List.getD_eq_getElem?_getD]
    rcases Nat.lt_or_gt_of_ne hh with hlt | hgt
    · rw [List.getElem?_append_left hlt]
    · have hlen : (n.handles ++ [b.handle n.rank]).length ≤ h := by
        rw [List.length_append]
        exact hgt
      rw [List.getElem?_eq_none hlen, List.getElem?_eq_none (Nat.le_of_lt hgt)]
  have hmarks : marks h (chapters ++ [.birth n b]) = marks h chapters := by
    rw [marks_append_singleton]
    cases b with
    | empty count owner tag => exact List.append_nil _
    | filled block =>
      show _ ++ (if _ = _ then _ else _) = _
      rw [if_neg fun heq => hh heq.symm, List.append_nil]
  have hold : ∀ g, Chapter.scene g ∈ chapters ++ [.birth n b] → Chapter.scene g ∈ chapters := by
    intro g hg
    rcases List.mem_append.mp hg with hg | hg
    · exact hg
    · cases List.mem_singleton.mp hg
  have hrank : (n.addHandle (b.handle n.rank)).1.rank = n.rank := rfl
  constructor
  case state =>
    rw [hsame, hrank, hmarks]
    exact hc.state
  case foreign =>
    rw [hsame, hrank]
    exact hc.foreign
  case sent =>
    rw [hsame]
    exact hc.sent
  case unsent =>
    rw [hsame, hrank]
    exact hc.unsent
  case lasts =>
    intro ho g hg
    rw [hsame] at ho ⊢
    exact hc.lasts ho g (hold g hg)
  case alters =>
    intro hf g hg
    rw [hsame] at hf
    exact hc.alters hf g (hold g hg)

/-- Whatever happens goes on with what is known of a buffer. -/
theorem Coherent.undergo (hc : Coherent chapters n h) (hl : n.Licit)
    (known : ∀ h ∈ a.names, h < n.handles.length) (step : n.undergo net a = some (net', n')) :
    Coherent (chapters ++ [.scene ⟨net, n, a, n'⟩]) n' h := by
  have hset := setting_of_undergo step
  have howner := owner_of_setting hset h
  have hrank := rank_of_setting hset
  have hmemory := hl.memory step h
  have hstate := hl.state known step (h := h)
  constructor
  case state =>
    rw [howner, hrank]
    intro ho
    rw [hstate ho, marks_append_singleton, hc.state ho]
    exact List.foldl_append.symm
  case foreign =>
    rw [howner, hrank]
    intro hf
    rcases hl.state_of_foreign step hf with hs | hs
    · rw [hs]
      exact hc.foreign hf
    · exact hs
  case sent =>
    rw [howner]
    rcases hl.sent step h with hs | hs | ⟨ho, t, ht, hs⟩ <;> rw [hs]
    · exact hc.sent
    · exact nofun
    · intro hin
      rcases List.mem_append.mp hin with hin | hin
      · exact hc.sent hin
      · exact ht ((List.mem_singleton.mp hin).symm.trans ho)
  case unsent =>
    rw [howner, hrank]
    intro hf
    rcases hl.sent step h with hs | hs | ⟨ho, -⟩
    · exact hs.trans (hc.unsent hf)
    · exact hs
    · exact absurd ho hf
  case lasts =>
    rw [howner, hrank]
    intro ho g hg
    have hnow : ((n.handle h).state ≠ .uninitialized → (n'.handle h).state ≠ .uninitialized) ∧
        ((n.handle h).memory ≠ .absent → (n'.handle h).memory ≠ .absent) := by
      refine ⟨fun hs => ?_, hmemory.1 ho⟩
      rw [hstate ho]
      exact Mark.foldl_pass_ne hs _
    rcases List.mem_append.mp hg with hg | hg
    · obtain ⟨hs, hm⟩ := hc.lasts ho g hg
      exact ⟨fun hn => hnow.1 (hs hn), fun hn => hnow.2 (hm hn)⟩
    · cases List.mem_singleton.mp hg
      exact hnow
  case alters =>
    rw [howner, hrank]
    intro hf g hg
    rcases List.mem_append.mp hg with hg | hg
    · exact hc.alters hf g hg
    · cases List.mem_singleton.mp hg
      exact hmemory.2 hf

theorem Life.coherent (life : Life chapters n) (h : HandleId) : Coherent chapters n h := by
  induction life with
  | start rank size codelets =>
    have hnone : ((Node.handle { rank, size, codelets } h : Handle α)) = default :=
      handle_of_le (Nat.zero_le h)
    refine ⟨fun _ => ?_, fun _ => Or.inl ?_, ?_, fun _ => ?_, fun _ g hg => absurd hg List.not_mem_nil,
      fun _ g hg => absurd hg List.not_mem_nil⟩
    · rw [hnone]
      rfl
    · rw [hnone]
      rfl
    · rw [hnone]
      exact nofun
    · rw [hnone]
      rfl
  | @birth chapters n b life ih =>
    by_cases hh : h = n.handles.length
    · subst hh
      exact .born life b
    · exact ih.addHandle hh b
  | scene a life known step ih => exact ih.undergo life.licit known step

/-- Throughout every life of a rank, and whatever fails in it: the state of a buffer on its owner
tells whether a write has passed its checks, and whether one has since the last flush, it is never
that of a copy and never again that of a buffer that was not written, and memory that was allocated
is not freed; the owner alone keeps to whom it has sent the buffer, and never itself.  On every
other rank the state tells of a copy or of nothing, neither a computation nor an accessor can write
the buffer, and its memory is changed by the receives and evictions of the runtime and by the first
to open it alone. -/
theorem Life.state_follows_marks (life : Life chapters n) (h : HandleId) :
    ((n.handle h).owner = n.rank →
      (n.handle h).state ≠ .remoteCached ∧
      ((n.handle h).state = .localValid ↔ Mark.Unflushed (marks h chapters)) ∧
      ((n.handle h).state = .globallyVisible ↔
        Mark.written ∈ marks h chapters ∧ ¬Mark.Unflushed (marks h chapters)) ∧
      ∀ g, .scene g ∈ chapters →
        ((g.before.handle h).state ≠ .uninitialized → (n.handle h).state ≠ .uninitialized) ∧
        ((g.before.handle h).memory ≠ .absent → (n.handle h).memory ≠ .absent)) ∧
    (n.handle h).owner ∉ (n.handle h).sent ∧
    ((n.handle h).owner ≠ n.rank →
      (n.handle h).sent = [] ∧
      ((n.handle h).state = .uninitialized ∨ (n.handle h).state = .remoteCached) ∧
      (∀ w ∈ n.work, ∀ (k : Nat) (b : Access), w.op.operands[k]? = some (.data h b) → b.writes = false ∧
        ∀ views, (n.openAll w.op.operands).2 = some views → ∃ block, views[k]? = some (.shared block)) ∧
      (∀ k c, n.accessors.find? k = some c → c.handle = h → c.access.writes = false ∧
        ∀ block, n.write c block = .error .lockedForReading) ∧
      ∀ g, .scene g ∈ chapters → g.Alters h) := by
  have hc := life.coherent h
  have hl := life.licit
  refine ⟨fun ho => ?_, hc.sent, fun hf => ⟨hc.unsent hf, hc.foreign hf, ?_, ?_, hc.alters hf⟩⟩
  · have hs := hc.state ho
    refine ⟨?_, ?_, ?_, hc.lasts ho⟩ <;> rw [hs]
    · exact Mark.coherence_ne_remoteCached _
    · exact Mark.coherence_eq_localValid_iff
    · exact Mark.coherence_eq_globallyVisible_iff
  · intro w hw k b hk
    have hb : b.writes = false := by
      refine Bool.eq_false_iff.mpr fun hb => hf ?_
      exact (hl.work w hw (h, b) (Op.mem_uses_iff.mpr (List.mem_of_getElem? hk))).2 hb
    exact ⟨hb, fun views hv => shared_of_openAll hv hk hb⟩
  · intro k c hk hch
    have hb : c.access.writes = false := by
      refine Bool.eq_false_iff.mpr fun hb => hf ?_
      exact hch ▸ (hl.accessors k c hk).2 hb
    refine ⟨hb, fun block => ?_⟩
    unfold write
    rw [hb]
    rfl

end

/-- A rank writes its own buffer, which is flushed, and asks for a copy of another rank's, which it
cannot write; the receive of the copy is refused. -/
theorem Life.state_follows_marks_of_refusal :
    ∃ (chapters : List (Chapter (ElementType.Value .i64))) (n : Node (ElementType.Value .i64)),
      Life chapters n ∧ (n.handle 0).owner = n.rank ∧ (n.handle 0).state = .globallyVisible ∧
      Mark.written ∈ marks 0 chapters ∧ ¬Mark.Unflushed (marks 0 chapters) ∧
      (n.handle 1).owner ≠ n.rank ∧ (n.handle 1).state = .uninitialized ∧ (n.handle 1).sent = [] ∧
      ∀ g, .scene g ∈ chapters → g.Alters 1 := by
  have life : Life (α := ElementType.Value .i64) _ _ := .start 0 2 []
  have life := life.birth (.empty 1 0 (some ⟨7⟩))
  have life := life.birth (.empty 1 1 (some ⟨8⟩))
  have life := @Life.scene _ _ _ _ (.ofSize 2) _ _ (.acquire 0 .write) life (by decide) rfl
  have life := @Life.scene _ _ _ _ (.ofSize 2) _ _ (.transfer 1 0) life (by decide) rfl
  have life := @Life.scene _ _ _ _ (.ofSize 2) _ _ (.flush 0) life (by decide) rfl
  have life := @Life.scene _ _ _ _ (.ofSize 2) _ _ (.acquire 1 .write) life (by decide) rfl
  have life := @Life.scene _ _ _ _ (.ofSize 2) _ _ .take life (by decide) rfl
  have life := @Life.scene _ _ _ _ (.ofSize 2) _ _ .take life (by decide) rfl
  have life := @Life.scene _ _ _ _ { Cluster.ofSize 2 with
    receipts := [(0, .refused (.closed 1 ⟨8⟩))] } _ _ (.arrive 0) life (by decide) rfl
  obtain ⟨hown, -, -⟩ := life.state_follows_marks 0
  obtain ⟨-, -, hforeign⟩ := life.state_follows_marks 1
  obtain ⟨hsent, -, -, -, halters⟩ := hforeign (by decide)
  obtain ⟨-, -, hvisible, -⟩ := hown rfl
  obtain ⟨hwritten, hflushed⟩ := hvisible.mp rfl
  exact ⟨_, _, life, rfl, rfl, hwritten, hflushed, by decide, rfl, hsent, halters⟩

end Node

end TiledTensor
